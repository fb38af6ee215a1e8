/-
# A ring buffer

`n` slots and two indices into them, which wrap around. One slot stays unused:
the ring is empty when the indices meet, and full when `head` stands just
before `tail`.

Key definitions: `RingBuf`, `RingBuf.contents`, `RingBuf.push`,
`RingBuf.release`.
Key theorems: `RingBuf.contents_push`, `RingBuf.contents_release`,
`RingBuf.full_iff`.
-/
import Mathlib.Algebra.Group.Fin.Basic
import Mathlib.Algebra.GroupWithZero.Nat
import Mathlib.Data.Fin.Basic
import Mathlib.Data.Nat.Notation

/-- What stands from `tail` up to `head` is stored. -/
structure RingBuf (α : Type*) (n : ℕ) where
  buf : Vector α n
  head : Fin n
  tail : Fin n

namespace RingBuf

variable {α : Type*} {n : ℕ} [NeZero n]

/-- `k` slots, from `t`. -/
def window (buf : Vector α n) : Fin n → ℕ → List α
  | _, 0 => []
  | t, k + 1 => buf[t.val] :: window buf (t + 1) k

/-- What is stored, the oldest first. -/
def contents (r : RingBuf α n) : List α := window r.buf r.tail (r.head - r.tail).val

def push (r : RingBuf α n) (a : α) : RingBuf α n :=
  { r with buf := r.buf.set r.head.val a, head := r.head + 1 }

/-- The oldest element goes. -/
def release (r : RingBuf α n) : RingBuf α n := { r with tail := r.tail + 1 }

theorem length_window (buf : Vector α n) : ∀ (t : Fin n) (k : ℕ), (window buf t k).length = k
  | _, 0 => rfl
  | t, k + 1 => by rw [window, List.length_cons, length_window buf (t + 1) k]

theorem length_contents (r : RingBuf α n) : r.contents.length = (r.head - r.tail).val :=
  length_window ..

theorem contents_eq_nil_iff (r : RingBuf α n) : r.contents = [] ↔ r.head = r.tail := by
  rw [← List.length_eq_zero_iff, length_contents, Fin.val_eq_zero_iff, sub_eq_zero]

theorem val_add_one_mod (x : Fin n) : (x + 1).val = (x.val + 1) % n := by
  rw [Fin.val_add, Fin.val_one', Nat.add_mod_mod]

/-- One step on, unless the last slot was reached. -/
theorem val_add_one {x : Fin n} (h : x + 1 ≠ 0) : (x + 1).val = x.val + 1 := by
  have hlt := x.isLt
  have hne : (x + 1).val ≠ 0 := fun h0 => h (Fin.val_eq_zero_iff.mp h0)
  rw [val_add_one_mod] at hne ⊢
  rcases Nat.lt_or_ge (x.val + 1) n with hlt' | hge
  · exact Nat.mod_eq_of_lt hlt'
  · have heq : x.val + 1 = n := by omega
    rw [heq, Nat.mod_self] at hne
    exact absurd rfl hne

theorem full_iff (r : RingBuf α n) : r.head + 1 = r.tail ↔ r.contents.length + 1 = n := by
  have hsub : r.head + 1 - r.tail = (r.head - r.tail) + 1 := by rw [sub_add_eq_add_sub]
  rw [length_contents, ← sub_eq_zero, hsub]
  have hlt := (r.head - r.tail).isLt
  constructor
  · intro h0
    have hval := congrArg Fin.val h0
    rw [val_add_one_mod, Fin.val_zero] at hval
    by_contra hne
    rw [Nat.mod_eq_of_lt (by omega)] at hval
    omega
  · intro heq
    rw [← Fin.val_eq_zero_iff, val_add_one_mod, heq, Nat.mod_self]

/-- The slot behind a window is not in it. -/
theorem window_set (buf : Vector α n) (a : α) : ∀ (k : ℕ) (t s : Fin n), k < n →
    s = t + Fin.ofNat n k →
    window (buf.set s.val a) t (k + 1) = window buf t k ++ [a]
  | 0, t, s, _, hs => by
    have hst : s = t := by
      rw [hs]
      exact add_zero t
    simp [window, hst]
  | k + 1, t, s, hk, hs => by
    have hne : s ≠ t := by
      rw [hs]
      intro h0
      have hval := congrArg Fin.val (add_eq_left.mp h0)
      rw [Fin.val_ofNat, Nat.mod_eq_of_lt hk, Fin.val_zero] at hval
      omega
    have hs' : s = t + 1 + Fin.ofNat n k := by
      rw [hs, add_assoc]
      congr 1
      apply Fin.ext
      simp [Fin.val_add, Nat.add_comm]
    have hget : (buf.set s.val a)[t.val] = buf[t.val] := by
      have hval : s.val ≠ t.val := fun h => hne (Fin.ext h)
      exact Vector.getElem_set_ne s.isLt t.isLt hval
    rw [window, window_set buf a k (t + 1) s (by omega) hs', hget, window, List.cons_append]

theorem contents_push {r : RingBuf α n} (h : r.head + 1 ≠ r.tail) (a : α) :
    (r.push a).contents = r.contents ++ [a] := by
  have hsub : r.head + 1 - r.tail = (r.head - r.tail) + 1 := by rw [sub_add_eq_add_sub]
  have hne : (r.head - r.tail) + 1 ≠ 0 := by
    rw [← hsub, ne_eq, sub_eq_zero]
    exact h
  have hhead : r.head = r.tail + Fin.ofNat n (r.head - r.tail).val := by
    rw [Fin.ofNat_val_eq_self, add_sub_cancel]
  unfold contents push
  simp only []
  rw [hsub, val_add_one hne]
  exact window_set r.buf a _ r.tail r.head (r.head - r.tail).isLt hhead

theorem contents_release {r : RingBuf α n} (h : r.head ≠ r.tail) :
    r.contents = r.buf[r.tail.val] :: r.release.contents := by
  have hadd : (r.head - (r.tail + 1)) + 1 = r.head - r.tail := by
    rw [sub_add_eq_sub_sub, sub_add_cancel]
  have hne : (r.head - (r.tail + 1)) + 1 ≠ 0 := by
    rw [hadd, ne_eq, sub_eq_zero]
    exact h
  unfold contents release
  simp only []
  rw [← hadd, val_add_one hne, window]

end RingBuf

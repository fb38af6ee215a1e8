/-
# A word as a set of bit numbers

The bits of a word after `x ||| (1 <<< b)` and `x &&& ~~~(1 <<< b)`, and the
number of trailing zeros of 64 bits as the least bit number in the set.

Key theorems: `getLsbD_setBit`, `getLsbD_clearBit`, `ctz_lt`, `getLsbD_ctz`,
`ctz_le`.
-/
import Mathlib.Data.Nat.Notation

namespace Word

theorem getLsbD_setBit {w : ℕ} (x : BitVec w) {b : ℕ} (hb : b < w) (i : ℕ) :
    (x ||| (1#w <<< b)).getLsbD i = true ↔ i = b ∨ x.getLsbD i = true := by
  simp only [BitVec.getLsbD_or, BitVec.getLsbD_shiftLeft, BitVec.getLsbD_one, Bool.or_eq_true,
    Bool.and_eq_true, decide_eq_true_eq, Bool.not_eq_true', decide_eq_false_iff_not]
  constructor
  · rintro (h | ⟨⟨_, h1⟩, h2⟩)
    · exact Or.inr h
    · exact Or.inl (by omega)
  · rintro (rfl | h)
    · exact Or.inr ⟨⟨hb, by omega⟩, by omega, by omega⟩
    · exact Or.inl h

theorem getLsbD_clearBit {w : ℕ} (x : BitVec w) {b : ℕ} (hb : b < w) (i : ℕ) :
    (x &&& ~~~(1#w <<< b)).getLsbD i = true ↔ i ≠ b ∧ x.getLsbD i = true := by
  rw [BitVec.getLsbD_and, Bool.and_eq_true]
  by_cases hi : i < w
  · have h := getLsbD_setBit 0#w hb i
    simp only [BitVec.zero_or, BitVec.getLsbD_zero, Bool.false_eq_true, or_false] at h
    rw [BitVec.getLsbD_not, Bool.and_eq_true, Bool.not_eq_true', decide_eq_true_eq,
      ← Bool.not_eq_true, h]
    exact ⟨fun ⟨h1, _, h2⟩ => ⟨h2, h1⟩, fun ⟨h1, h2⟩ => ⟨h2, hi, h1⟩⟩
  · have hx : x.getLsbD i = false := BitVec.getLsbD_of_ge x i (by omega)
    simp [hx]

theorem getLsbD_orBit (x : BitVec 64) {b : ℕ} (hb : b < 64) (i : ℕ) :
    (x ||| (1#64 <<< b)).getLsbD i = true ↔ i = b ∨ x.getLsbD i = true := getLsbD_setBit x hb i

theorem getLsbD_andNotBit (x : BitVec 64) {b : ℕ} (hb : b < 64) (i : ℕ) :
    (x &&& ~~~(1#64 <<< b)).getLsbD i = true ↔ i ≠ b ∧ x.getLsbD i = true := getLsbD_clearBit x hb i

/-- A word with a bit set is not zero. -/
theorem ne_zero_of_getLsbD {x : BitVec 64} {i : ℕ} (h : x.getLsbD i = true) : x ≠ 0#64 := by
  rintro rfl
  simp at h

theorem ctz_lt {x : BitVec 64} (h : x ≠ 0#64) : x.ctz.toNat < 64 := by
  simpa [BitVec.lt_def] using BitVec.ctz_lt_iff_ne_zero.mpr h

theorem getLsbD_ctz {x : BitVec 64} (h : x ≠ 0#64) : x.getLsbD x.ctz.toNat = true :=
  BitVec.getLsbD_true_ctz_of_ne_zero h

/-- No bit below the trailing zeros is set. -/
theorem ctz_le {x : BitVec 64} {i : ℕ} (h : x.getLsbD i = true) : x.ctz.toNat ≤ i := by
  refine Nat.not_lt.mp fun hlt => ?_
  rw [BitVec.getLsbD_false_of_lt_ctz hlt] at h
  cases h

end Word

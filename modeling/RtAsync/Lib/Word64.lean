/-
# Arithmetic on 64-bit words

Addition that stops at the largest word; a ratio of two numbers, rounded down
and cut to a word; and a word as two halves of 32 bits, of which one can be
written at a time.

Key definitions: `saturatingAdd`, `scaled`, `join`, `high`, `low`.
Key theorems: `toNat_saturatingAdd`, `scaled_mul_le`, `scaled_mul_eq_iff`,
`toNat_join`, `join_high_low`, `lt_join_iff`.
-/
import Mathlib.Algebra.GroupWithZero.Nat
import Mathlib.Data.Nat.Notation

namespace Word64

/-! ### Saturation -/

def saturatingAdd (a b : UInt64) : UInt64 :=
  if a.toNat + b.toNat < 2 ^ 64 then a + b else 0xffffffffffffffff

theorem toNat_saturatingAdd (a b : UInt64) :
    (saturatingAdd a b).toNat = min (a.toNat + b.toNat) (2 ^ 64 - 1) := by
  have ha := a.toNat_lt
  have hb := b.toNat_lt
  unfold saturatingAdd
  split
  · rw [UInt64.toNat_add]
    omega
  · rw [show (0xffffffffffffffff : UInt64).toNat = 2 ^ 64 - 1 from rfl]
    omega

theorem le_saturatingAdd (a b : UInt64) : a.toNat ≤ (saturatingAdd a b).toNat := by
  have ha := a.toNat_lt
  rw [toNat_saturatingAdd]
  omega

/-! ### A ratio -/

/-- `x / k`, rounded down and cut to 64 bits. -/
def scaled (x k : ℕ) : UInt64 := UInt64.ofNat (x / k)

theorem toNat_scaled (x k : ℕ) : (scaled x k).toNat = x / k % 2 ^ 64 := UInt64.toNat_ofNat' ..

theorem scaled_mul_le (x k : ℕ) : (scaled x k).toNat * k ≤ x := by
  rw [toNat_scaled]
  exact Nat.le_trans (Nat.mul_le_mul_right k (Nat.mod_le _ _)) (Nat.div_mul_le_self x k)

/-- The ratio is kept exactly when nothing is rounded and nothing is cut. -/
theorem scaled_mul_eq_iff {x k : ℕ} (hk : 0 < k) :
    (scaled x k).toNat * k = x ↔ k ∣ x ∧ x / k < 2 ^ 64 := by
  rw [toNat_scaled]
  constructor
  · intro h
    have hdvd : k ∣ x := ⟨_, by rw [Nat.mul_comm]; exact h.symm⟩
    have hdiv : x / k % 2 ^ 64 = x / k := (Nat.div_eq_of_eq_mul_left hk h.symm).symm
    refine ⟨hdvd, ?_⟩
    rw [← hdiv]
    exact Nat.mod_lt _ (by decide)
  · rintro ⟨hdvd, hlt⟩
    rw [Nat.mod_eq_of_lt hlt, Nat.div_mul_cancel hdvd]

/-! ### Halves -/

/-- The word whose halves are `hi` and `lo`. -/
def join (hi lo : UInt32) : UInt64 := (hi.toUInt64 <<< 32) ||| lo.toUInt64

def high (x : UInt64) : UInt32 := (x >>> 32).toUInt32

def low (x : UInt64) : UInt32 := x.toUInt32

theorem toNat_high (x : UInt64) : (high x).toNat = x.toNat / 2 ^ 32 := by
  have hx := x.toNat_lt
  have hlt : x.toNat / 2 ^ 32 < 2 ^ 32 := by omega
  simp only [high, UInt64.toNat_toUInt32, UInt64.toNat_shiftRight, Nat.shiftRight_eq_div_pow]
  exact Nat.mod_eq_of_lt hlt

theorem toNat_low (x : UInt64) : (low x).toNat = x.toNat % 2 ^ 32 := UInt64.toNat_toUInt32 x

theorem toNat_join (hi lo : UInt32) : (join hi lo).toNat = hi.toNat * 2 ^ 32 + lo.toNat := by
  have hhi := hi.toNat_lt
  have hlo := lo.toNat_lt
  have hshift : (hi.toUInt64 <<< 32).toNat = hi.toNat <<< 32 := by
    rw [UInt64.toNat_shiftLeft, UInt32.toNat_toUInt64]
    refine Nat.mod_eq_of_lt ?_
    show hi.toNat <<< 32 < 2 ^ 64
    rw [Nat.shiftLeft_eq]
    omega
  rw [join, UInt64.toNat_or, hshift, UInt32.toNat_toUInt64,
    ← Nat.shiftLeft_add_eq_or_of_lt hlo, Nat.shiftLeft_eq]

/-- Both halves make the word. -/
theorem join_high_low (x : UInt64) : join (high x) (low x) = x := by
  apply UInt64.toNat_inj.mp
  rw [toNat_join, toNat_high, toNat_low]
  omega

/-- The order of words is that of their halves, the high one first. -/
theorem lt_join_iff (x : UInt64) (hi lo : UInt32) :
    x < join hi lo ↔ high x < hi ∨ (high x = hi ∧ low x < lo) := by
  have hlo := lo.toNat_lt
  rw [UInt64.lt_iff_toNat_lt, UInt32.lt_iff_toNat_lt, UInt32.lt_iff_toNat_lt, ← UInt32.toNat_inj,
    toNat_join, toNat_high, toNat_low]
  omega

end Word64

/-
# Programming the compare register

`platform/src/drivers/timer_clint.rs`: the 64-bit compare register of the CLINT
is written in two halves, the high one first. In between it holds the new high
half and the old low half. The timer interrupt is pending while the register
is at most the clock.

Key definitions: `ClintMtimecmp`, `ClintMtimecmp.setDeadline`,
`ClintMtimecmp.Pending`.
Key theorems: `ClintMtimecmp.setDeadline_value`,
`ClintMtimecmp.not_pending_between_iff`, `ClintMtimecmp.set_deadline_iff`.
-/
import RtAsync.Lib.Word64

namespace RtAsync

open Word64 (join high low join_high_low lt_join_iff)

/-- `ClintMtimecmp`: the compare register in two halves. -/
structure ClintMtimecmp where
  lo : UInt32
  hi : UInt32
  deriving DecidableEq

namespace ClintMtimecmp

/-- The 64 bits that the clock is compared with. -/
def value (cmp : ClintMtimecmp) : UInt64 := join cmp.hi cmp.lo

/-- `cmp.hi.set((tick >> 32) as u32)`. -/
def writeHi (cmp : ClintMtimecmp) (tick : UInt64) : ClintMtimecmp :=
  { cmp with hi := (tick >>> 32).toUInt32 }

/-- `cmp.lo.set(tick as u32)`. -/
def writeLo (cmp : ClintMtimecmp) (tick : UInt64) : ClintMtimecmp :=
  { cmp with lo := tick.toUInt32 }

/-- `ClintTimer::set_deadline`: the register after each of its two writes. -/
def setDeadline (cmp : ClintMtimecmp) (tick : UInt64) : ClintMtimecmp × ClintMtimecmp :=
  (cmp.writeHi tick, (cmp.writeHi tick).writeLo tick)

/-- The timer interrupt is pending. -/
def Pending (cmp : ClintMtimecmp) (mtime : UInt64) : Prop := cmp.value ≤ mtime

instance (cmp : ClintMtimecmp) (mtime : UInt64) : Decidable (cmp.Pending mtime) :=
  inferInstanceAs (Decidable (_ ≤ _))

/-- `set_deadline` leaves the new value. -/
theorem setDeadline_value (cmp : ClintMtimecmp) (tick : UInt64) :
    (cmp.setDeadline tick).2.value = tick := join_high_low tick

/-- Between the writes the interrupt stays away exactly when the clock is below
the new high half, or in it and below the old low half. -/
theorem not_pending_between_iff (cmp : ClintMtimecmp) (tick mtime : UInt64) :
    ¬(cmp.setDeadline tick).1.Pending mtime ↔
      high mtime < high tick ∨ (high mtime = high tick ∧ low mtime < cmp.lo) := by
  unfold Pending
  rw [UInt64.not_le]
  exact lt_join_iff mtime (high tick) cmp.lo

/-- **When reprogramming raises no spurious timer interrupt.** With the clock
below the new value (and whether or not it is below the old one), the value
between the two writes is above the clock as well and the final one is the new
one, exactly when the high half of the new value is not that of the clock, or
the old low half is above the low half of the clock. -/
theorem set_deadline_iff (cmp : ClintMtimecmp) (tick mtime : UInt64) (hnew : mtime < tick) :
    (mtime < (cmp.setDeadline tick).1.value ∧ (cmp.setDeadline tick).2.value = tick) ↔
      high mtime ≠ high tick ∨ low mtime < cmp.lo := by
  have hhigh : high mtime < high tick ∨ high mtime = high tick := by
    rw [← join_high_low tick, lt_join_iff] at hnew
    exact hnew.imp_right And.left
  rw [and_iff_left (setDeadline_value cmp tick), ← UInt64.not_le]
  refine (not_pending_between_iff cmp tick mtime).trans ?_
  constructor
  · rintro (hlt | ⟨-, hlo⟩)
    · exact Or.inl (UInt32.ne_of_lt hlt)
    · exact Or.inr hlo
  · rintro (hne | hlo)
    · exact Or.inl (hhigh.resolve_right hne)
    · exact hhigh.imp_right fun he => ⟨he, hlo⟩

/-- From 300 to 200, with the clock at 100. -/
theorem set_deadline_same_high :
    (100 < ((⟨300, 0⟩ : ClintMtimecmp).setDeadline 200).1.value ∧
      ((⟨300, 0⟩ : ClintMtimecmp).setDeadline 200).2.value = 200) ↔
      high 100 ≠ high 200 ∨ low 100 < 300 :=
  set_deadline_iff ⟨300, 0⟩ 200 100 (by decide)

/-- From `0x1_0000_0000` to `0xffff_ffff`, with the clock at 5: the register is 0
in between. -/
theorem set_deadline_spurious : ¬∀ (cmp : ClintMtimecmp) (tick mtime : UInt64),
    mtime < cmp.value → mtime < tick →
    mtime < (cmp.setDeadline tick).1.value ∧ (cmp.setDeadline tick).2.value = tick := by
  intro h
  have hbetween := (h ⟨0, 1⟩ 0xffffffff 5 (by decide) (by decide)).1
  exact absurd hbetween (by decide)

end ClintMtimecmp
end RtAsync

/-
# A waker slot and its flag

`IrqLatch` (`platform/src/irq.rs`) and the receiver of the UART
(`platform/src/drivers/serial_ns16550a.rs`) keep the waker of the task that
awaits them in a `MaybeUninit<Waker>`, which the flag `has_waker` tells to be
initialised. Reading or dropping what is not initialised has no result here,
and writing does not drop what was there. The clones that the slot was given
are numbered, and it is kept what became of each.

Key definitions: `WakerSlot`, `WakerSlot.register`, `WakerSlot.unregister`,
`WakerSlot.wake`, `WakerSlot.Ok`.
Key theorems: `WakerSlot.Ok.register`, `WakerSlot.Ok.unregister`,
`WakerSlot.Ok.wake`.
-/
import Mathlib.Data.List.Perm.Basic
import Mathlib.Data.List.Range
import Mathlib.Data.Nat.Notation

namespace RtAsync

variable {W : Type}

/-- `has_waker` and `waker`; the clones that were stored are numbered from 0,
and `woken` and `dropped` are those that were. -/
structure WakerSlot (W : Type) where
  hasWaker : Bool
  waker : Option (ℕ × W)
  stored : ℕ
  woken : List ℕ
  dropped : List ℕ
  deriving DecidableEq

namespace WakerSlot

def new : WakerSlot W := ⟨false, none, 0, [], []⟩

/-- `assume_init_drop`. -/
def assumeInitDrop (self : WakerSlot W) : Option (WakerSlot W) :=
  self.waker.map fun (n, _) => { self with waker := none, dropped := n :: self.dropped }

/-- `assume_init_read`, and `wake` of what was read. -/
def assumeInitWake (self : WakerSlot W) : Option (WakerSlot W × W) :=
  self.waker.map fun (n, w) => ({ self with waker := none, woken := n :: self.woken }, w)

/-- `write` of a clone of `w`. -/
def write (self : WakerSlot W) (w : W) : WakerSlot W :=
  { self with waker := some (self.stored, w), stored := self.stored + 1 }

/-- With interrupts disabled: drop a waker that is there, write the new one and
set the flag. -/
def register (self : WakerSlot W) (w : W) : Option (WakerSlot W) :=
  (if self.hasWaker then self.assumeInitDrop else some self).map fun s =>
    { s.write w with hasWaker := true }

/-- With interrupts disabled: clear the flag and drop the waker. -/
def unregister (self : WakerSlot W) : Option (WakerSlot W) :=
  { self with hasWaker := false }.assumeInitDrop

/-- In the interrupt: take the flag and wake the waker it told of. -/
def wake (self : WakerSlot W) : Option (WakerSlot W × Option W) :=
  if self.hasWaker then
    { self with hasWaker := false }.assumeInitWake.map fun (s, w) => (s, some w)
  else some (self, none)

/-- The flag tells whether the slot is initialised, and each clone that was
stored is in the slot or was woken or dropped, once. -/
structure Ok (s : WakerSlot W) : Prop where
  init_iff : s.waker.isSome = s.hasWaker
  accounted : (s.waker.toList.map Prod.fst ++ (s.woken ++ s.dropped)).Perm (List.range s.stored)

namespace Ok

theorem new : (new : WakerSlot W).Ok := ⟨rfl, List.Perm.refl _⟩

variable {s : WakerSlot W}

theorem waker_eq_none (h : s.Ok) (hw : s.hasWaker = false) : s.waker = none := by
  rw [← h.init_iff] at hw
  simpa using hw

theorem waker_eq_some (h : s.Ok) (hw : s.hasWaker = true) : ∃ n w, s.waker = some (n, w) := by
  rw [← h.init_iff] at hw
  obtain ⟨⟨n, w⟩, hnw⟩ := Option.isSome_iff_exists.mp hw
  exact ⟨n, w, hnw⟩

/-- What is stored in an empty slot is a new clone. -/
theorem write {r : WakerSlot W}
    (ha : (r.woken ++ r.dropped).Perm (List.range r.stored)) (w : W) :
    ({ r.write w with hasWaker := true } : WakerSlot W).Ok := by
  refine ⟨rfl, ?_⟩
  show (r.stored :: (r.woken ++ r.dropped)).Perm (List.range (r.stored + 1))
  rw [List.range_succ]
  exact (ha.cons r.stored).trans (List.perm_append_singleton r.stored (List.range r.stored)).symm

theorem register (h : s.Ok) (w : W) :
    ∃ s' n, s.register w = some s' ∧ s'.waker = some (n, w) ∧ s'.Ok := by
  have ha := h.accounted
  cases hw : s.hasWaker with
  | false =>
    rw [h.waker_eq_none hw] at ha
    refine ⟨{ s.write w with hasWaker := true }, s.stored, ?_, rfl, write ha w⟩
    simp [WakerSlot.register, hw]
  | true =>
    obtain ⟨n, v, hnv⟩ := h.waker_eq_some hw
    let r : WakerSlot W := { s with waker := none, dropped := n :: s.dropped }
    have hdrop : s.assumeInitDrop = some r := by simp [assumeInitDrop, hnv, r]
    have hr : (r.woken ++ r.dropped).Perm (List.range r.stored) := by
      rw [hnv] at ha
      exact List.perm_middle.trans ha
    refine ⟨{ r.write w with hasWaker := true }, r.stored, ?_, rfl, write hr w⟩
    rw [WakerSlot.register, if_pos hw, hdrop, Option.map_some]

theorem unregister (h : s.Ok) (hw : s.waker.isSome) :
    ∃ s', s.unregister = some s' ∧ s'.waker = none ∧ s'.Ok := by
  obtain ⟨⟨n, v⟩, hnv⟩ := Option.isSome_iff_exists.mp hw
  have ha := h.accounted
  rw [hnv] at ha
  refine ⟨_, by simp only [WakerSlot.unregister, assumeInitDrop, hnv, Option.map_some]; rfl, rfl,
    rfl, ?_⟩
  exact List.perm_middle.trans ha

theorem wake (h : s.Ok) :
    ∃ s', s.wake = some (s', s.waker.map Prod.snd) ∧ s'.waker = none ∧
      s'.woken = s.waker.toList.map Prod.fst ++ s.woken ∧ s'.Ok := by
  cases hw : s.hasWaker with
  | false =>
    have hnone := h.waker_eq_none hw
    refine ⟨s, ?_, hnone, by simp [hnone], h⟩
    simp [WakerSlot.wake, hw, hnone]
  | true =>
    obtain ⟨n, v, hnv⟩ := h.waker_eq_some hw
    have ha := h.accounted
    rw [hnv] at ha
    refine ⟨_, by simp only [WakerSlot.wake, hw, if_true, assumeInitWake, hnv, Option.map_some];
                  rfl, rfl, by simp [hnv], rfl, ha⟩

end Ok
end WakerSlot
end RtAsync

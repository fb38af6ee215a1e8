/-
# The last poll of a future

`core::task::Poll`, and what is kept beside a future that a claim about lost
wakes reads: how its last poll ended, the waker that poll was given, and
whether that waker has been woken since.

Key definitions: `Poll`, `LastPoll`, `LastPoll.wake`.
-/
import Mathlib.Data.Nat.Notation
import Mathlib.Logic.Basic

namespace RtAsync

inductive Poll (V : Type)
  | ready (v : V)
  | pending
  deriving DecidableEq, Repr

/-- How the last poll of a future ended; `woken` says that the waker `w` given
to it has been woken since. -/
inductive LastPoll (W : Type)
  | unpolled
  | pending (w : W) (woken : Bool)
  | ready
  deriving DecidableEq, Repr

namespace LastPoll

variable {W : Type}

def isPending : LastPoll W → Bool
  | pending _ _ => true
  | _ => false

def isWoken : LastPoll W → Bool
  | pending _ woken => woken
  | _ => false

def isReady : LastPoll W → Bool
  | ready => true
  | _ => false

variable [DecidableEq W]

/-- The wake of a waker counts for every poll that was given that waker. -/
def wake (w : W) : LastPoll W → LastPoll W
  | pending v woken => pending v (woken || v = w)
  | l => l

@[simp] theorem isPending_wake (w : W) (l : LastPoll W) : (l.wake w).isPending = l.isPending := by
  cases l <;> rfl

theorem isWoken_wake {l : LastPoll W} (w : W) (h : l.isWoken = true) :
    (l.wake w).isWoken = true := by
  cases l with
  | pending v woken =>
    have hw : woken = true := h
    simp [wake, isWoken, hw]
  | _ => cases h

theorem isWoken_wake_self (w : W) (woken : Bool) : ((pending w woken).wake w).isWoken = true := by
  simp [wake, isWoken]

/-- A waker that has not been woken after the wake of `v` was not before, and is
not `v`. -/
theorem of_wake_eq_pending {l : LastPoll W} {v w : W} (h : l.wake v = pending w false) :
    l = pending w false ∧ v ≠ w := by
  cases l with
  | pending u woken =>
    simp only [wake, pending.injEq, Bool.or_eq_false_iff, decide_eq_false_iff_not] at h
    obtain ⟨rfl, rfl, hne⟩ := h
    exact ⟨rfl, fun heq => hne heq.symm⟩
  | _ => simp [wake] at h

/-- The wakes of the wakers `ws`. -/
def wakeAll (ws : List W) : LastPoll W → LastPoll W
  | pending v woken => pending v (woken || v ∈ ws)
  | l => l

@[simp] theorem isPending_wakeAll (ws : List W) (l : LastPoll W) :
    (l.wakeAll ws).isPending = l.isPending := by
  cases l <;> rfl

theorem wakeAll_eq_pending {l : LastPoll W} {ws : List W} {w : W} {woken : Bool}
    (h : l.wakeAll ws = pending w woken) :
    ∃ before, l = pending w before ∧ woken = (before || w ∈ ws) := by
  cases l with
  | pending v before =>
    simp only [wakeAll, pending.injEq] at h
    obtain ⟨rfl, rfl⟩ := h
    exact ⟨before, rfl, rfl⟩
  | _ => simp [wakeAll] at h

end LastPoll
end RtAsync

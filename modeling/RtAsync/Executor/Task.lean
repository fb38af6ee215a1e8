/-
# Priorities, task state and the task header

`priority.rs`, `task/state.rs`, `task/header.rs` and the join state of
`task/storage.rs`. A task is named by its `TaskRef`, the address of its header
(any type `T` with decidable equality); a waker made by `waker::from_task` is
that address, so it is a `T` too. An executor is its index in
`Spawner::executors`, so `executor_ptr` is an `Option (Fin N)`.

Key definitions: `Priority`, `State`, `TaskInfo`, `JoinState`.
-/
import Mathlib.Data.Nat.Notation
import Mathlib.Order.Basic

namespace RtAsync

/-! ### Priorities -/

/-- Lower value, higher priority. -/
structure Priority where
  value : ℕ
  deriving DecidableEq, Repr

namespace Priority

def cmp (self other : Priority) : Ordering := compare other.value self.value

def isLowerThan (self other : Priority) : Bool := self.cmp other == .lt

def isHigherThan (self other : Priority) : Bool := self.cmp other == .gt

theorem isLowerThan_iff (p q : Priority) : p.isLowerThan q = true ↔ q.value < p.value := by
  simp [isLowerThan, cmp, Nat.compare_eq_lt]

theorem isHigherThan_iff (p q : Priority) : p.isHigherThan q = true ↔ p.value < q.value := by
  simp [isHigherThan, cmp, Nat.compare_eq_gt]

end Priority

/-! ### The state word -/

/-- The two bits of `State::inner`. -/
structure State where
  spawned : Bool
  runQueued : Bool
  deriving DecidableEq, Repr

namespace State

def new : State := ⟨false, false⟩

/-- `fetch_or(STATE_SPAWNED)`, and whether the bit was clear. -/
def spawn (s : State) : State × Bool := ({ s with spawned := true }, !s.spawned)

def despawn (s : State) : State := { s with spawned := false }

/-- `fetch_or(STATE_RUN_QUEUED)`, and whether the bit was clear. The closure
of `run_enqueue` runs later, in its critical section. -/
def runEnqueue (s : State) : State × Bool := ({ s with runQueued := true }, !s.runQueued)

def runDequeue (s : State) : State := { s with runQueued := false }

end State

/-! ### The task header and the join state -/

/-- `poll_fn`: `TaskStorage::poll`, or the no-op that replaces it. -/
inductive PollFn
  | poll
  | pollExited
  deriving DecidableEq, Repr

/-- The future's place in `UninitCell`: nothing written yet, a future that can
be polled, one that returned `Ready`, one dropped in place. -/
inductive Slot
  | uninit
  | live
  | finished
  | dropped
  deriving DecidableEq, Repr

/-- `JoinState<T>`: the output `V` of the task and the waker `W` of its handle. -/
structure JoinState (V W : Type) where
  result : Option V
  waker : Option W

/-- `JoinState::new`, and what `TaskStorage::spawn` resets it to. -/
def JoinState.new {V W : Type} : JoinState V W := ⟨none, none⟩

/-- A `TaskStorage`: its header (the links are the run queues of the model),
its join state and its future. -/
structure TaskInfo (N : ℕ) (T V : Type) where
  state : State
  executorPtr : Option (Fin N)
  pollFn : Option PollFn
  join : JoinState V T
  slot : Slot

/-- `TaskStorage::new`. -/
def TaskInfo.new {N : ℕ} {T V : Type} : TaskInfo N T V := ⟨.new, none, none, .new, .uninit⟩

end RtAsync

/-
# The executor on one hart

The accesses of `Executor`, `RunQueue`, `Spawner`, `TaskStorage`, `JoinHandle`,
`platform::pend` and of the `MachineSoft` that `#[main]` generates, one step
for each access to shared memory outside a critical section and one step for
each critical section (it runs with interrupts disabled, so nothing comes
between its accesses).

The hart runs one activation at a time: `main` and the idle loop, an interrupt
handler, or a `MachineSoft`. An interrupt taken while interrupts are enabled
puts a new activation on top; the activation below goes on where it stood when
the one on top has returned. `Kernel.frames` is this stack, the innermost
activation first. What user code does (futures, handlers, `main`) is open: it
may wake any task, spawn, poll any handle and return at any moment.

A panic is the absence of a step (`none`): the handler of `panic.rs` never
returns.

Key definitions: `Shared`, `Call`, `Frame`, `callStep`, `frameStep`, `step`.
-/
import Mathlib.Logic.Function.Basic
import RtAsync.Lib.Transition
import RtAsync.Executor.PriorityBitmap
import RtAsync.Executor.Task

namespace RtAsync

open Function (update)

/-- What the activations share. `Spawner<N>` is `queue`, `bitmap` and
`prioStack`; the head of `prioStack` is the last element of the `Vec`. `mie`
is the interrupt enable of `mstatus`, `msip` the pending software interrupt,
`tokens` counts the `SpawnToken`s of a task that nobody has consumed. -/
structure Shared (N : ℕ) (T V : Type) where
  tasks : T → TaskInfo N T V
  queue : Fin N → List T
  bitmap : PriorityBitmap 64
  prioStack : List Priority
  pendMarker : Bool
  msip : Bool
  mie : Bool
  tokens : T → ℕ

variable {N : ℕ} {T V : Type} [DecidableEq T]

namespace Shared

def init : Shared N T V where
  tasks := fun _ => .new
  queue := fun _ => []
  bitmap := .new 64
  prioStack := []
  pendMarker := false
  msip := false
  mie := false
  tokens := fun _ => 0

def setTask (s : Shared N T V) (t : T) (i : TaskInfo N T V) : Shared N T V :=
  { s with tasks := update s.tasks t i }

/-! ### Atomic accesses and critical sections -/

/-- The `fetch_or` of `State::run_enqueue`. -/
def runEnqueue (s : Shared N T V) (t : T) : Shared N T V × Bool :=
  let (st, fresh) := (s.tasks t).state.runEnqueue
  (s.setTask t { s.tasks t with state := st }, fresh)

/-- The closure of `Executor::enqueue`, inside its critical section. -/
def enqueueLocked (s : Shared N T V) (e : Fin N) (t : T) : Option (Shared N T V) :=
  (s.bitmap.set e).map fun bm =>
    { s.setTask t { s.tasks t with executorPtr := some e } with
      queue := update s.queue e (s.queue e ++ [t])
      bitmap := bm }

/-- The critical section of `Executor::run`: `RunQueue::dequeue`, and the bit
is cleared if there is nothing to dequeue. -/
def dequeueLocked (s : Shared N T V) (e : Fin N) : Option (Shared N T V × Option T) :=
  match s.queue e with
  | t :: ts =>
    some ({ s.setTask t { s.tasks t with state := (s.tasks t).state.runDequeue } with
            queue := update s.queue e ts }, some t)
  | [] => (s.bitmap.clear e).map fun bm => ({ s with bitmap := bm }, none)

/-- `platform::pend`, where nothing comes between its two accesses. -/
def pend (s : Shared N T V) : Shared N T V := { s with pendMarker := true, msip := true }

/-- The test of `Spawner::spawn`. -/
def shouldPend (s : Shared N T V) : Option Bool :=
  s.bitmap.highest.map fun highest => match highest with
    | none => false
    | some p => match s.prioStack.head? with
      | none => true
      | some now => Priority.isHigherThan ⟨p⟩ now

/-- The critical section of `Spawner::spawn`. -/
def spawnLocked (s : Shared N T V) : Option (Shared N T V) :=
  s.shouldPend.map fun b => if b then s.pend else s

/-- `stack.push(prio)` of a `heapless::Vec<Priority, N>`; `none` when full. -/
def pushPrio (s : Shared N T V) (p : Priority) : Option (Shared N T V) :=
  if s.prioStack.length < N then some { s with prioStack := p :: s.prioStack } else none

/-- `Spawner::try_preempt`; the outer option is a panic, the inner one the
`RunToken`. -/
def tryPreempt (s : Shared N T V) : Option (Shared N T V × Option Priority) :=
  s.bitmap.highest.map fun highest => match highest with
    | none => (s, none)
    | some p =>
      let pushed := match s.pushPrio ⟨p⟩ with
        | some s' => (s', some ⟨p⟩)
        | none => (s, none)
      match s.prioStack.head? with
      | none => pushed
      | some q => if q.isLowerThan ⟨p⟩ then pushed else (s, none)

/-- `Spawner::complete_executor`. -/
def completeExecutor (s : Shared N T V) : Shared N T V :=
  { s with prioStack := s.prioStack.tail }

/-- `wake_task` inside a critical section. -/
def wakeLocked (s : Shared N T V) (w : T) : Option (Shared N T V) :=
  match (s.tasks w).executorPtr with
  | none => some s
  | some e =>
    let (s', fresh) := s.runEnqueue w
    if fresh then (s'.enqueueLocked e w).map pend else some s'

/-- The last critical section of `TaskStorage::poll`: despawn, and wake the
waker of the join handle. -/
def notifyLocked (s : Shared N T V) (t : T) : Option (Shared N T V) :=
  let i := s.tasks t
  let s' := s.setTask t
    { i with state := i.state.despawn, join := { i.join with waker := none } }
  match i.join.waker with
  | none => some s'
  | some w => s'.wakeLocked w

end Shared

/-! ### Calls of user code into the executor -/

/-- A call in progress, by its next access. -/
inductive Call (N : ℕ) (T : Type)
  /-- `wake_task(t)`: load `executor_ptr`. -/
  | wake (t : T)
  /-- `wake_task(t)`, `executor_ptr` was `e`: the `fetch_or`. -/
  | wakeFlag (t : T) (e : Fin N)
  /-- `wake_task(t)`: the critical section of `Executor::enqueue`. -/
  | wakePush (t : T) (e : Fin N)
  /-- `pend`: store `PEND_MARKER`. -/
  | pendMark
  /-- `pend`: send the software interrupt. -/
  | pendSend
  /-- `Spawner::spawn(e, t)`: the `fetch_or`. -/
  | spawnFlag (e : Fin N) (t : T)
  /-- `Spawner::spawn(e, t)`: the critical section of `Executor::enqueue`. -/
  | spawnPush (e : Fin N) (t : T)
  /-- `Spawner::spawn`: the critical section that decides to pend. -/
  | spawnPend
  /-- `TaskStorage::spawn`: the `fetch_or`. -/
  | storageFlag (t : T)
  /-- `TaskStorage::spawn`: clear `join.result`. -/
  | storageResult (t : T)
  /-- `TaskStorage::spawn`: clear `join.waker`. -/
  | storageWaker (t : T)
  /-- `TaskStorage::spawn`: store `poll_fn`. -/
  | storageFn (t : T)
  /-- `TaskStorage::spawn`: write the future, and return the token. -/
  | storageWrite (t : T)
  /-- `JoinHandle::poll` of the handle of `t` with waker `w`: take `join.result`. -/
  | joinTake (t w : T)
  /-- `JoinHandle::poll`: store `join.waker`. -/
  | joinStore (t w : T)
  deriving DecidableEq

/-- What user code may ask for. -/
inductive Request (T : Type)
  | wake (t : T)
  | spawn (prio : Priority) (t : T)
  | storageSpawn (t : T)
  | joinPoll (t w : T)

/-- A call begins. `Spawner::spawn` needs a token and a priority below `N`. -/
def callStart (s : Shared N T V) : Request T → Option (Shared N T V × Call N T)
  | .wake t => some (s, .wake t)
  | .spawn prio t =>
    if h : prio.value < N then
      if 0 < s.tokens t then
        some ({ s with tokens := update s.tokens t (s.tokens t - 1) }, .spawnFlag ⟨prio.value, h⟩ t)
      else none
    else none
  | .storageSpawn t => some (s, .storageFlag t)
  | .joinPoll t w => some (s, .joinTake t w)

/-- The next access of a call, and what is left of the call. -/
def callStep (s : Shared N T V) : Call N T → Option (Shared N T V × Option (Call N T))
  | .wake t => some (s, (s.tasks t).executorPtr.map fun e => .wakeFlag t e)
  | .wakeFlag t e =>
    let (s', fresh) := s.runEnqueue t
    some (s', if fresh then some (.wakePush t e) else none)
  | .wakePush t e => (s.enqueueLocked e t).map fun s' => (s', some .pendMark)
  | .pendMark => some ({ s with pendMarker := true }, some .pendSend)
  | .pendSend => some ({ s with msip := true }, none)
  | .spawnFlag e t =>
    let (s', fresh) := s.runEnqueue t
    some (s', if fresh then some (.spawnPush e t) else none)
  | .spawnPush e t => (s.enqueueLocked e t).map fun s' => (s', some .spawnPend)
  | .spawnPend => s.spawnLocked.map fun s' => (s', none)
  | .storageFlag t =>
    let (st, fresh) := (s.tasks t).state.spawn
    some (s.setTask t { s.tasks t with state := st },
      if fresh then some (.storageResult t) else none)
  | .storageResult t =>
    some (s.setTask t { s.tasks t with join := { (s.tasks t).join with result := none } },
      some (.storageWaker t))
  | .storageWaker t =>
    some (s.setTask t { s.tasks t with join := { (s.tasks t).join with waker := none } },
      some (.storageFn t))
  | .storageFn t =>
    some (s.setTask t { s.tasks t with pollFn := some .poll }, some (.storageWrite t))
  | .storageWrite t =>
    some ({ s.setTask t { s.tasks t with slot := .live } with
            tokens := update s.tokens t (s.tokens t + 1) }, none)
  | .joinTake t w =>
    match (s.tasks t).join.result with
    | some _ =>
      some (s.setTask t { s.tasks t with join := { (s.tasks t).join with result := none } }, none)
    | none => some (s, some (.joinStore t w))
  | .joinStore t w =>
    some (s.setTask t { s.tasks t with join := { (s.tasks t).join with waker := some w } }, none)

/-! ### Activations -/

/-- Where `Executor::run` stands. -/
inductive RunPc (N : ℕ) (T V : Type)
  /-- Entered, before the first turn of the loop. -/
  | start
  /-- Before the critical section that dequeues. -/
  | top
  /-- Dequeued `t`, before `poll_fn` is read. -/
  | got (t : T)
  /-- Inside the future of `t`. -/
  | poll (t : T) (c : Option (Call N T))
  /-- The future returned `Ready(v)`: store `join.result`. -/
  | storeResult (t : T) (v : V)
  /-- Store null into `executor_ptr`. -/
  | storeNull (t : T)
  /-- Inside the destructor of the future of `t`, which is dropped in place. -/
  | dropInPlace (t : T) (c : Option (Call N T))
  /-- Store `poll_exited` into `poll_fn`. -/
  | storeExited (t : T)
  /-- The critical section that despawns and wakes the handle. -/
  | notify (t : T)
  deriving DecidableEq

/-- An activation: `main` and the idle loop (`base`), an interrupt handler
(`isr`), or a `MachineSoft` at one of its statements (the rest). -/
inductive Frame (N : ℕ) (T V : Type)
  | base (c : Option (Call N T))
  | isr (c : Option (Call N T))
  /-- Inside `__Inner_MachineSoft`. -/
  | hook (c : Option (Call N T))
  /-- `clear_pend`: swap `PEND_MARKER`. -/
  | swap
  /-- `clear_pend`: clear the software interrupt; `sys` is what was swapped out. -/
  | clear (sys : Bool)
  | tryPreempt
  /-- A `RunToken` in hand: enable interrupts. -/
  | enable (rt : Priority)
  | run (e : Fin N) (r : RunPc N T V)
  /-- `run` has returned: disable interrupts. -/
  | disable (e : Fin N)
  | completeExecutor (e : Fin N)
  | mret
  deriving DecidableEq

namespace Frame

/-- The call in progress of user code; the outer option is `none` in the
statements that are not user code. -/
def user : Frame N T V → Option (Option (Call N T))
  | base c => some c
  | isr c => some c
  | hook c => some c
  | run _ (.poll _ c) => some c
  | run _ (.dropInPlace _ c) => some c
  | _ => none

def setCall (f : Frame N T V) (c : Option (Call N T)) : Frame N T V :=
  match f with
  | base _ => base c
  | isr _ => isr c
  | hook _ => hook c
  | run e (.poll t _) => run e (.poll t c)
  | run e (.dropInPlace t _) => run e (.dropInPlace t c)
  | f => f

end Frame

/-- What happens next. -/
inductive Event (T V : Type)
  /-- The innermost activation makes its next access. -/
  | tick
  /-- User code calls the executor. -/
  | call (r : Request T)
  /-- A handler, `__Inner_MachineSoft` or a destructor returns. -/
  | ret
  /-- The future returns `Pending`. -/
  | pending
  /-- The future returns `Ready(v)`. -/
  | ready (v : V)
  /-- `enable_interrupts` / `disable_interrupts` by `main`, a handler or a future. -/
  | setMie (b : Bool)
  /-- The software interrupt is taken. -/
  | trapSoft
  /-- Another interrupt is taken. -/
  | trapIsr
  /-- Another hart raises the software interrupt. -/
  | external

/-- The next access of `Executor::run` of executor `e`. -/
def runStep (s : Shared N T V) (e : Fin N) :
    RunPc N T V → Option (Shared N T V × Frame N T V)
  | .start => some (s, .run e .top)
  | .top => (s.dequeueLocked e).map fun (s', task) => match task with
    | some t => (s', .run e (.got t))
    | none => (s', .disable e)
  | .got t => match (s.tasks t).pollFn with
    | none => none
    | some .poll => some (s, .run e (.poll t none))
    | some .pollExited => some (s, .run e .top)
  | .poll _ _ => none
  | .storeResult t v =>
    some (s.setTask t { s.tasks t with join := { (s.tasks t).join with result := some v } },
      .run e (.storeNull t))
  | .storeNull t =>
    some (s.setTask t { s.tasks t with executorPtr := none }, .run e (.dropInPlace t none))
  | .dropInPlace _ _ => none
  | .storeExited t =>
    some (s.setTask t { s.tasks t with pollFn := some .pollExited }, .run e (.notify t))
  | .notify t => (s.notifyLocked t).map fun s' => (s', .run e .top)

/-- The next access of the innermost activation: the frames that replace it. -/
def tickStep (s : Shared N T V) (f : Frame N T V) :
    Option (Shared N T V × List (Frame N T V)) :=
  match f.user with
  | some (some c) => (callStep s c).map fun (s', c') => (s', [f.setCall c'])
  | some none => none
  | none => match f with
    | .swap => some ({ s with pendMarker := false }, [.clear s.pendMarker])
    | .clear sys => some ({ s with msip := false }, [if sys then .tryPreempt else .mret])
    | .tryPreempt => s.tryPreempt.map fun (s', rt) => match rt with
      | some p => (s', [.enable p])
      | none => (s', [.mret])
    | .enable rt =>
      -- `self.executors[run_token.0.to_usize()]`
      if h : rt.value < N then some ({ s with mie := true }, [.run ⟨rt.value, h⟩ .start]) else none
    | .run e r => (runStep s e r).map fun (s', f') => (s', [f'])
    | .disable e => some ({ s with mie := false }, [.completeExecutor e])
    | .completeExecutor _ => some (s.completeExecutor, [.tryPreempt])
    | .mret => some ({ s with mie := true }, [])
    | _ => none

/-- One event, seen from the innermost activation. -/
def frameStep (s : Shared N T V) (f : Frame N T V) :
    Event T V → Option (Shared N T V × List (Frame N T V))
  | .tick => tickStep s f
  | .call r =>
    if f.user = some none then
      (callStart s r).map fun (s', c) => (s', [f.setCall (some c)])
    else none
  | .ret => match f with
    | .isr none => some ({ s with mie := true }, [])
    | .hook none => some (s, [.swap])
    | .run e (.dropInPlace t none) =>
      some (s.setTask t { s.tasks t with slot := .dropped }, [.run e (.storeExited t)])
    | _ => none
  | .pending => match f with
    | .run e (.poll _ none) => some (s, [.run e .top])
    | _ => none
  | .ready v => match f with
    | .run e (.poll t none) =>
      some (s.setTask t { s.tasks t with slot := .finished }, [.run e (.storeResult t v)])
    | _ => none
  | .setMie b => match f with
    | .base none => some ({ s with mie := b }, [f])
    | .isr none => some ({ s with mie := b }, [f])
    | .run _ (.poll _ none) => some ({ s with mie := b }, [f])
    | _ => none
  | .trapSoft => if s.mie && s.msip then some ({ s with mie := false }, [.hook none, f]) else none
  | .trapIsr => if s.mie then some ({ s with mie := false }, [.isr none, f]) else none
  | .external => some ({ s with msip := true }, [f])

/-- The hart: the shared state and the stack of activations, innermost first. -/
structure Kernel (N : ℕ) (T V : Type) where
  shared : Shared N T V
  frames : List (Frame N T V)

namespace Kernel

def init : Kernel N T V := ⟨.init, [.base none]⟩

def step (k : Kernel N T V) (ev : Event T V) : Option (Kernel N T V) :=
  match k.frames with
  | [] => none
  | f :: fs => (frameStep k.shared f ev).map fun (s', gs) => ⟨s', gs ++ fs⟩

/-- The states the executor reaches. -/
def Reachable (k : Kernel N T V) : Prop := Transition.Reach step init k

/-- A run of given events is evaluated up to what is observed of its end. -/
theorem reachable_of_exec {α : Type} (obs : Kernel N T V → α) (es : List (Event T V)) {a : α}
    (h : (Transition.exec step init es).map obs = some a) : ∃ k, Reachable k ∧ obs k = a := by
  obtain ⟨k, hk, hobs⟩ := Option.map_eq_some_iff.mp h
  exact ⟨k, Transition.reach_of_exec es hk, hobs⟩

end Kernel

/-! ### Scripts -/

namespace Event

/-- `TaskStorage::spawn` and then `Spawner::spawn` of `t`. -/
def spawnTask (prio : Priority) (t : T) : List (Event T V) :=
  .call (.storageSpawn t) :: List.replicate 5 .tick ++
    .call (.spawn prio t) :: List.replicate 3 .tick

/-- `MachineSoft`, up to the first dequeue of `run`. -/
def machineSoft : List (Event T V) :=
  .trapSoft :: .ret :: List.replicate 6 .tick

end Event
end RtAsync

/-
# The async mutex

`futures/src/mutex.rs`: each poll and each drop is one critical section, so a
run is a list of them, in any order. A lock future is named by the address of
its `waker` field (any type `A` with decidable equality), which is what
`waiters` holds; an address is free again once its future is dropped. The
value that the mutex guards is left out.

A future that `MutexGuard::drop` has popped keeps `queued`, so it never goes
back into the queue; and when a woken future is dropped, its wake is passed on
to no one. `Mutex.StepOk` excludes these two steps, and
`Mutex.not_stranded_iff` says that nothing else strands a waiter.

Key definitions: `MutexLockFuture.poll`, `MutexGuard.drop`, `Mutex.step`,
`Mutex.NotStranded`, `Mutex.StepOk`.
Key theorems: `Mutex.step_next`, `Mutex.Waits.next`, `Mutex.Exclusive.next`,
`Mutex.excludes`, `Mutex.NotStranded.next`, `Mutex.not_stranded_iff`,
`Mutex.waiter_stranded`.
-/
import Mathlib.Data.List.Nodup
import Mathlib.Data.Set.Function
import RtAsync.Futures.Poll
import RtAsync.Lib.BoundedVec
import RtAsync.Lib.Transition

namespace RtAsync

open Function (update update_self update_of_ne)
open Transition (Along Always Reach Steps always_iff_along exec reach_of_exec)

variable {N : ℕ} {A W : Type}

/-! ### The source -/

structure MutexInner (N : ℕ) (A : Type) where
  locked : Bool
  waiters : BoundedVec A N

structure MutexLockFuture (W : Type) where
  queued : Bool
  waker : Option W
  deriving DecidableEq

/-- `Mutex::new`. -/
def MutexInner.new : MutexInner N A := ⟨false, .new⟩

/-- `Mutex::lock`. -/
def MutexLockFuture.new : MutexLockFuture W := ⟨false, none⟩

namespace MutexLockFuture

variable [DecidableEq A]

/-- `MutexLockFuture::poll` of the future at `a`; `none` is the panic of a full
queue. -/
def poll (self : MutexLockFuture W) (a : A) (inner : MutexInner N A) (cx : W) :
    Option (MutexLockFuture W × MutexInner N A × Poll Unit) :=
  if !inner.locked then
    if self.queued then
      some ({ self with waker := none }, ⟨true, inner.waiters.retain (· ≠ a)⟩, .ready ())
    else some (self, { inner with locked := true }, .ready ())
  else if !self.queued then
    (inner.waiters.push a).map fun ws => (⟨true, some cx⟩, { inner with waiters := ws }, .pending)
  else some ({ self with waker := some cx }, inner, .pending)

/-- `MutexLockFuture::drop`. -/
def drop (self : MutexLockFuture W) (a : A) (inner : MutexInner N A) : MutexInner N A :=
  if self.queued then { inner with waiters := inner.waiters.retain (· ≠ a) } else inner

end MutexLockFuture

/-- `MutexGuard::drop` up to the read of the waker, and the waiter it pops. -/
def MutexGuard.drop (inner : MutexInner N A) : MutexInner N A × Option A :=
  match inner.waiters.removeFirst with
  | none => ({ inner with locked := false }, none)
  | some (a, ws) => (⟨false, ws⟩, some a)

/-! ### A mutex with its futures and guards -/

/-- A lock future, and how its last poll ended. -/
structure LockFuture (W : Type) extends MutexLockFuture W where
  last : LastPoll W
  deriving DecidableEq

/-- A mutex, the lock futures that are alive, the guards that exist and those
that were leaked. -/
structure Mutex (N : ℕ) (A W : Type) where
  inner : MutexInner N A
  futures : A → Option (LockFuture W)
  guards : ℕ
  leaked : ℕ

/-- `lock a` makes a future at the free address `a`; `forgetGuard` is
`mem::forget`. -/
inductive MutexEvent (A W : Type)
  | lock (a : A)
  | poll (a : A) (w : W)
  | dropFuture (a : A)
  | dropGuard
  | forgetGuard

namespace Mutex

def init : Mutex N A W := ⟨.new, fun _ => none, 0, 0⟩

/-- `wake_by_ref` of what the popped waiter's `Option<Waker>` holds. -/
def wakeByRef [DecidableEq W] (waker : Option W) (futures : A → Option (LockFuture W)) :
    A → Option (LockFuture W) :=
  match waker with
  | none => futures
  | some w => fun a => (futures a).map fun f => { f with last := f.last.wake w }

variable [DecidableEq A]

section Step

variable [DecidableEq W]

/-- One critical section, or a future or a guard that comes or goes without
one. A guard whose popped waiter is no live future has no step: it reads freed
memory. -/
def step (m : Mutex N A W) : MutexEvent A W → Option (Mutex N A W)
  | .lock a => match m.futures a with
    | some _ => none
    | none => some { m with futures := update m.futures a (some ⟨.new, .unpolled⟩) }
  | .poll a w => (m.futures a).bind fun f =>
    (f.poll a m.inner w).map fun (f', inner, result) => match result with
      | .ready () =>
        { m with inner, futures := update m.futures a (some ⟨f', .ready⟩), guards := m.guards + 1 }
      | .pending => { m with inner, futures := update m.futures a (some ⟨f', .pending w false⟩) }
  | .dropFuture a => (m.futures a).map fun f =>
    { m with inner := f.drop a m.inner, futures := update m.futures a none }
  | .dropGuard => match m.guards with
    | 0 => none
    | guards + 1 => match MutexGuard.drop m.inner with
      | (inner, none) => some { m with inner, guards }
      | (inner, some a) => (m.futures a).map fun f =>
        { m with inner, futures := wakeByRef f.waker m.futures, guards }
  | .forgetGuard => match m.guards with
    | 0 => none
    | guards + 1 => some { m with guards, leaked := m.leaked + 1 }

/-- What a step can do. -/
inductive Next (m : Mutex N A W) : MutexEvent A W → Mutex N A W → Prop
  | lock {a : A} : m.futures a = none →
      Next m (.lock a) { m with futures := update m.futures a (some ⟨.new, .unpolled⟩) }
  | acquire {a : A} {w : W} {f : LockFuture W} {f' : MutexLockFuture W} {ws : BoundedVec A N} :
      m.futures a = some f → m.inner.locked = false →
      ws.toList = (if f.queued then m.inner.waiters.toList.filter (· ≠ a)
        else m.inner.waiters.toList) →
      Next m (.poll a w) { m with
        inner := ⟨true, ws⟩, futures := update m.futures a (some ⟨f', .ready⟩)
        guards := m.guards + 1 }
  | enqueue {a : A} {w : W} {f : LockFuture W} {ws : BoundedVec A N} :
      m.futures a = some f → m.inner.locked = true → f.queued = false →
      ws.toList = m.inner.waiters.toList ++ [a] →
      Next m (.poll a w) { m with
        inner := ⟨true, ws⟩
        futures := update m.futures a (some ⟨⟨true, some w⟩, .pending w false⟩) }
  | repoll {a : A} {w : W} {f : LockFuture W} :
      m.futures a = some f → m.inner.locked = true → f.queued = true →
      Next m (.poll a w) { m with
        futures := update m.futures a (some ⟨⟨true, some w⟩, .pending w false⟩) }
  | dropFuture {a : A} {f : LockFuture W} {ws : BoundedVec A N} : m.futures a = some f →
      ws.toList = (if f.queued then m.inner.waiters.toList.filter (· ≠ a)
        else m.inner.waiters.toList) →
      Next m (.dropFuture a) { m with
        inner := { m.inner with waiters := ws }, futures := update m.futures a none }
  | release {guards : ℕ} : m.guards = guards + 1 → m.inner.waiters.toList = [] →
      Next m .dropGuard { m with inner := { m.inner with locked := false }, guards }
  | wakeFirst {guards : ℕ} {a : A} {f : LockFuture W} {ws : BoundedVec A N} :
      m.guards = guards + 1 → m.inner.waiters.toList = a :: ws.toList → m.futures a = some f →
      Next m .dropGuard { m with
        inner := ⟨false, ws⟩, futures := wakeByRef f.waker m.futures, guards }
  | forget {guards : ℕ} : m.guards = guards + 1 →
      Next m .forgetGuard { m with guards, leaked := m.leaked + 1 }

theorem step_poll {m m' : Mutex N A W} {a : A} {w : W} (h : step m (.poll a w) = some m') :
    Next m (.poll a w) m' := by
  obtain ⟨f, hf, h⟩ := Option.bind_eq_some_iff.mp h
  obtain ⟨⟨f', inner, result⟩, hpoll, h⟩ := Option.map_eq_some_iff.mp h
  unfold MutexLockFuture.poll at hpoll
  cases hl : m.inner.locked with
  | false =>
    cases hq : f.queued with
    | true =>
      simp only [hl, hq, Bool.not_false, if_true, Option.some.injEq, Prod.mk.injEq] at hpoll
      obtain ⟨rfl, rfl, rfl⟩ := hpoll
      rw [← h]
      exact .acquire hf hl (by rw [hq]; rfl)
    | false =>
      simp only [hl, hq, Bool.not_false, if_true, Bool.false_eq_true, if_false, Option.some.injEq,
        Prod.mk.injEq] at hpoll
      obtain ⟨rfl, rfl, rfl⟩ := hpoll
      rw [← h]
      exact .acquire hf hl (by rw [hq]; rfl)
  | true =>
    cases hq : f.queued with
    | false =>
      simp only [hl, hq, Bool.not_true, Bool.not_false, if_true, Bool.false_eq_true,
        if_false, Option.map_eq_some_iff, Prod.mk.injEq] at hpoll
      obtain ⟨ws, hws, rfl, rfl, rfl⟩ := hpoll
      rw [← h]
      exact .enqueue hf hl hq (BoundedVec.push_eq_some hws).2
    | true =>
      simp only [hl, hq, Bool.not_true, Bool.false_eq_true, if_false, Option.some.injEq,
        Prod.mk.injEq] at hpoll
      obtain ⟨rfl, rfl, rfl⟩ := hpoll
      rw [← h]
      exact .repoll hf hl hq

theorem step_dropGuard {m m' : Mutex N A W} (h : step m .dropGuard = some m') :
    Next m .dropGuard m' := by
  unfold step at h
  cases hg : m.guards with
  | zero =>
    rw [hg] at h
    cases h
  | succ guards =>
    rw [hg] at h
    cases hr : m.inner.waiters.removeFirst with
    | none =>
      simp only [MutexGuard.drop, hr, Option.some.injEq] at h
      rw [← h]
      exact .release hg (BoundedVec.removeFirst_eq_none hr)
    | some p =>
      obtain ⟨a, ws⟩ := p
      simp only [MutexGuard.drop, hr] at h
      obtain ⟨f, hf, rfl⟩ := Option.map_eq_some_iff.mp h
      exact .wakeFirst hg (BoundedVec.removeFirst_eq_some hr) hf

theorem step_next {m m' : Mutex N A W} {ev : MutexEvent A W} (h : step m ev = some m') :
    Next m ev m' := by
  cases ev with
  | lock a =>
    cases hf : m.futures a with
    | some f => simp [step, hf] at h
    | none =>
      simp only [step, hf, Option.some.injEq] at h
      rw [← h]
      exact .lock hf
  | poll a w => exact step_poll h
  | dropFuture a =>
    obtain ⟨f, hf, rfl⟩ := Option.map_eq_some_iff.mp h
    have hinner : f.drop a m.inner = { m.inner with waiters := (f.drop a m.inner).waiters } := by
      unfold MutexLockFuture.drop
      cases f.queued <;> rfl
    rw [hinner]
    refine .dropFuture hf ?_
    unfold MutexLockFuture.drop
    cases f.queued <;> rfl
  | dropGuard => exact step_dropGuard h
  | forgetGuard =>
    cases hg : m.guards with
    | zero => simp [step, hg] at h
    | succ guards =>
      simp only [step, hg, Option.some.injEq] at h
      rw [← h]
      exact .forget hg

end Step

/-! ### The waiter queue -/

/-- The last poll of the future at `a` returned `Pending`. -/
def Pending (futures : A → Option (LockFuture W)) (a : A) : Prop :=
  ∃ f, futures a = some f ∧ f.last.isPending = true

/-- The last poll of the future at `a` returned `Pending`, and its waker has
been woken since. -/
def Woken (futures : A → Option (LockFuture W)) (a : A) : Prop :=
  ∃ f, futures a = some f ∧ f.last.isWoken = true

/-- The future at `a` is queued and holds the waker of its last poll, which
returned `Pending`. -/
def Waiting (futures : A → Option (LockFuture W)) (a : A) : Prop :=
  ∃ f w woken, futures a = some f ∧ f.queued = true ∧ f.waker = some w ∧ f.last = .pending w woken

/-- The waiters are pairwise distinct live futures that wait. -/
structure Waits (m : Mutex N A W) : Prop where
  nodup : m.inner.waiters.toList.Nodup
  waiting : ∀ a ∈ m.inner.waiters.toList, Waiting m.futures a

section Frame

variable {futures : A → Option (LockFuture W)} {a b : A}

theorem pending_update_ne (h : b ≠ a) (o : Option (LockFuture W)) :
    Pending (update futures a o) b ↔ Pending futures b := by
  unfold Pending
  rw [update_of_ne h]

/-- A future that waits where one was put that does not wait is another one. -/
theorem ne_of_pending_update {o : Option (LockFuture W)} (h : Pending (update futures a o) b)
    (ho : ∀ f ∈ o, f.last.isPending = false) : b ≠ a := by
  rintro rfl
  obtain ⟨f, hf, hp⟩ := h
  rw [update_self] at hf
  rw [ho f hf] at hp
  cases hp

theorem woken_update_ne (h : b ≠ a) (o : Option (LockFuture W)) :
    Woken (update futures a o) b ↔ Woken futures b := by
  unfold Woken
  rw [update_of_ne h]

theorem Waiting.update_ne (hb : Waiting futures b) (h : b ≠ a) (o : Option (LockFuture W)) :
    Waiting (update futures a o) b := by
  unfold Waiting at hb ⊢
  rwa [update_of_ne h]

theorem waiting_update_self (w : W) :
    Waiting (update futures a (some ⟨⟨true, some w⟩, .pending w false⟩)) a :=
  ⟨⟨⟨true, some w⟩, .pending w false⟩, w, false, update_self .., rfl, rfl, rfl⟩

variable [DecidableEq W]

omit [DecidableEq A] in
theorem pending_wakeByRef (waker : Option W) :
    Pending (wakeByRef waker futures) b ↔ Pending futures b := by
  unfold Pending wakeByRef
  cases waker with
  | none => rfl
  | some w => simp

omit [DecidableEq A] in
theorem Woken.wakeByRef (waker : Option W) (h : Woken futures b) :
    Woken (wakeByRef waker futures) b := by
  obtain ⟨f, hf, hw⟩ := h
  cases waker with
  | none => exact ⟨f, hf, hw⟩
  | some w =>
    refine ⟨{ f with last := f.last.wake w }, ?_, LastPoll.isWoken_wake w hw⟩
    simp [Mutex.wakeByRef, hf]

omit [DecidableEq A] in
theorem Waiting.wakeByRef (waker : Option W) (h : Waiting futures b) :
    Waiting (wakeByRef waker futures) b := by
  cases waker with
  | none => exact h
  | some v =>
    obtain ⟨f, w, woken, hf, hq, hw, hl⟩ := h
    refine ⟨{ f with last := f.last.wake v }, w, woken || w = v, ?_, hq, hw, ?_⟩
    · simp [Mutex.wakeByRef, hf]
    · rw [hl]
      rfl

omit [DecidableEq A] in
/-- The waiter that a guard pops is woken. -/
theorem Waiting.woken {f : LockFuture W} (h : Waiting futures a) (hf : futures a = some f) :
    Woken (Mutex.wakeByRef f.waker futures) a := by
  obtain ⟨g, w, woken, hg, _, hw, hl⟩ := h
  obtain rfl : f = g := Option.some.inj (hf.symm.trans hg)
  refine ⟨{ f with last := f.last.wake w }, ?_, ?_⟩
  · simp [Mutex.wakeByRef, hw, hf]
  · rw [hl]
    exact LastPoll.isWoken_wake_self w woken

end Frame

/-- A future that is not queued is not in the list, so `retain` and leaving the
list alone come to the same. -/
theorem Waits.mem_retain {m : Mutex N A W} (h : m.Waits) {a b : A} {f : LockFuture W}
    {ws : List A} (hf : m.futures a = some f)
    (hws : ws = if f.queued then m.inner.waiters.toList.filter (· ≠ a)
      else m.inner.waiters.toList) : b ∈ ws ↔ b ∈ m.inner.waiters.toList ∧ b ≠ a := by
  rw [hws]
  cases hq : f.queued with
  | true => simp
  | false =>
    simp only [Bool.false_eq_true, if_false, iff_self_and]
    rintro hb rfl
    obtain ⟨g, _, _, hg, hqg, _, _⟩ := h.waiting b hb
    rw [Option.some.inj (hf.symm.trans hg), hqg] at hq
    cases hq

theorem Waits.nodup_retain {m : Mutex N A W} (h : m.Waits) {a : A} {f : LockFuture W}
    {ws : List A} (hws : ws = if f.queued then m.inner.waiters.toList.filter (· ≠ a)
      else m.inner.waiters.toList) : ws.Nodup := by
  rw [hws]
  split
  · exact h.nodup.filter _
  · exact h.nodup

variable [DecidableEq W]

theorem Waits.next {m m' : Mutex N A W} {ev : MutexEvent A W} (h : m.Waits) (hn : Next m ev m') :
    m'.Waits := by
  cases hn with
  | lock hf =>
    refine ⟨h.nodup, fun b hb => ?_⟩
    have hwait : Waiting m.futures b := h.waiting b hb
    refine hwait.update_ne ?_ _
    rintro rfl
    obtain ⟨g, _, _, hg, _⟩ := hwait
    rw [hf] at hg
    cases hg
  | acquire hf _ hws =>
    refine ⟨h.nodup_retain hws, fun b hb => ?_⟩
    obtain ⟨hb, hne⟩ := (h.mem_retain hf hws).mp hb
    exact (h.waiting b hb).update_ne hne _
  | @enqueue a w f ws hf _ hq hws =>
    have ha : a ∉ m.inner.waiters.toList := by
      intro ha
      obtain ⟨g, _, _, hg, hqg, _⟩ := h.waiting a ha
      rw [Option.some.inj (hf.symm.trans hg), hqg] at hq
      cases hq
    refine ⟨?_, fun b hb => ?_⟩
    · rw [hws]
      exact List.Nodup.append h.nodup (List.nodup_singleton a) (List.disjoint_singleton.mpr ha)
    · by_cases hba : b = a
      · exact hba ▸ waiting_update_self w
      · rw [hws, List.mem_append, List.mem_singleton, or_iff_left hba] at hb
        exact (h.waiting b hb).update_ne hba _
  | @repoll a w f hf _ _ =>
    refine ⟨h.nodup, fun b hb => ?_⟩
    by_cases hba : b = a
    · exact hba ▸ waiting_update_self w
    · exact (h.waiting b hb).update_ne hba _
  | dropFuture hf hws =>
    refine ⟨h.nodup_retain hws, fun b hb => ?_⟩
    obtain ⟨hb, hne⟩ := (h.mem_retain hf hws).mp hb
    exact (h.waiting b hb).update_ne hne _
  | release _ _ => exact ⟨h.nodup, h.waiting⟩
  | @wakeFirst _ a f ws _ hws _ =>
    have hnd : (a :: ws.toList).Nodup := hws ▸ h.nodup
    refine ⟨(List.nodup_cons.mp hnd).2, fun b hb => ?_⟩
    exact (h.waiting b (hws ▸ List.mem_cons_of_mem a hb)).wakeByRef _
  | forget _ => exact ⟨h.nodup, h.waiting⟩

omit [DecidableEq A] [DecidableEq W] in
theorem waits_init : (init : Mutex N A W).Waits :=
  ⟨List.nodup_nil, fun _ ha => by cases ha⟩

/-- `waiters` never holds the address of a future that is gone. -/
theorem waits_of_reach {m : Mutex N A W} (h : Reach step init m) : m.Waits :=
  h.invariant (fun _ _ _ hw hs => hw.next (step_next hs)) waits_init

/-! ### Exclusion -/

omit [DecidableEq A] [DecidableEq W] in
/-- The guards that were handed out and not dropped are those `locked` tells
of. -/
def Exclusive (m : Mutex N A W) : Prop := m.guards + m.leaked = m.inner.locked.toNat

theorem Exclusive.next {m m' : Mutex N A W} {ev : MutexEvent A W} (h : m.Exclusive)
    (hn : Next m ev m') : m'.Exclusive := by
  unfold Exclusive at h ⊢
  cases hn with
  | lock => exact h
  | acquire _ hl _ =>
    rw [hl, Bool.toNat_false] at h
    show m.guards + 1 + m.leaked = 1
    omega
  | enqueue _ hl _ _ =>
    rw [hl] at h
    exact h
  | repoll => exact h
  | dropFuture => exact h
  | @release guards hg _ =>
    have hle := Bool.toNat_le m.inner.locked
    show guards + m.leaked = 0
    omega
  | @wakeFirst guards a f ws hg _ _ =>
    have hle := Bool.toNat_le m.inner.locked
    show guards + m.leaked = 0
    omega
  | @forget guards hg =>
    show guards + (m.leaked + 1) = m.inner.locked.toNat
    omega

omit [DecidableEq A] [DecidableEq W] in
theorem Exclusive.locked {m : Mutex N A W} (h : m.Exclusive) (hg : 0 < m.guards) :
    m.inner.locked = true := by
  unfold Exclusive at h
  cases hl : m.inner.locked with
  | true => rfl
  | false =>
    rw [hl, Bool.toNat_false] at h
    omega

theorem exclusive_of_reach {m : Mutex N A W} (h : Reach step init m) : m.Exclusive :=
  h.invariant (fun _ _ _ he hs => he.next (step_next hs)) rfl

omit [DecidableEq A] [DecidableEq W] in
/-- A future that returned `Ready` is not polled again. -/
def PollOk (m : Mutex N A W) : MutexEvent A W → Prop
  | .poll a _ => ∀ f ∈ m.futures a, f.last ≠ .ready
  | _ => True

/-- So what its last poll returned tells whether a future ever returned
`Ready`. -/
theorem ready_next {m m' : Mutex N A W} {ev : MutexEvent A W} (hok : m.PollOk ev)
    (hn : Next m ev m') {a : A} {f f' : LockFuture W} (hf : m.futures a = some f)
    (hready : f.last = .ready) (hf' : m'.futures a = some f') : f'.last = .ready := by
  have hpolled : ∀ {b : A} {w : W} {o : Option (LockFuture W)}, ev = .poll b w →
      update m.futures b o a = some f' → f'.last = .ready := by
    rintro b w o rfl hup
    have hne : a ≠ b := by
      rintro rfl
      exact hok f hf hready
    rw [update_of_ne hne, hf] at hup
    rw [← Option.some.inj hup, hready]
  cases hn with
  | @lock b hfree =>
    have hne : a ≠ b := by
      rintro rfl
      rw [hfree] at hf
      cases hf
    have hup : update m.futures b _ a = some f' := hf'
    rw [update_of_ne hne, hf] at hup
    rw [← Option.some.inj hup, hready]
  | acquire => exact hpolled rfl hf'
  | enqueue => exact hpolled rfl hf'
  | repoll => exact hpolled rfl hf'
  | @dropFuture b =>
    have hup : update m.futures b none a = some f' := hf'
    by_cases hab : a = b
    · rw [hab, update_self] at hup
      cases hup
    · rw [update_of_ne hab, hf] at hup
      rw [← Option.some.inj hup, hready]
  | release =>
    rw [← Option.some.inj (hf.symm.trans hf'), hready]
  | @wakeFirst _ b g ws _ _ _ =>
    have hup : wakeByRef g.waker m.futures a = some f' := hf'
    cases hw : g.waker with
    | none =>
      rw [hw] at hup
      rw [← Option.some.inj (hf.symm.trans hup), hready]
    | some w =>
      rw [hw] at hup
      simp only [wakeByRef, hf, Option.map_some, Option.some.injEq] at hup
      rw [← hup]
      show f.last.wake w = .ready
      rw [hready]
      rfl
  | forget =>
    rw [← Option.some.inj (hf.symm.trans hf'), hready]

/-- A guard that goes finds the future it pops alive. -/
theorem Waits.dropGuard {m : Mutex N A W} (h : m.Waits) (hg : 0 < m.guards) :
    (step m .dropGuard).isSome := by
  obtain ⟨guards, hg⟩ : ∃ guards, m.guards = guards + 1 := ⟨m.guards - 1, by omega⟩
  unfold step
  rw [hg]
  cases hr : m.inner.waiters.removeFirst with
  | none => simp only [MutexGuard.drop, hr, Option.isSome_some]
  | some p =>
    obtain ⟨a, ws⟩ := p
    have ha : a ∈ m.inner.waiters.toList := by
      rw [BoundedVec.removeFirst_eq_some hr]
      exact List.mem_cons_self
    obtain ⟨f, _, _, hf, _⟩ := h.waiting a ha
    simp only [MutexGuard.drop, hr, hf, Option.map_some, Option.isSome_some]

/-- **The mutex excludes and its waiters are sound**, in every state of every
run. At most one guard has been handed out and not dropped, and `locked` tells
whether one has; the waiters are pairwise distinct live futures that are
queued, hold a waker and returned `Pending` last, where `Ready` stays what a
future returned last as long as nobody polls it again; and a guard that is
dropped finds the future it pops alive. -/
theorem excludes {m : Mutex N A W} (h : Reach step init m) :
    m.guards + m.leaked ≤ 1 ∧ (m.inner.locked = true ↔ m.guards + m.leaked = 1) ∧
    m.inner.waiters.toList.Nodup ∧
    (∀ a ∈ m.inner.waiters.toList, ∃ f w, m.futures a = some f ∧ f.queued = true ∧
      f.waker = some w ∧ f.last.isPending = true) ∧
    (∀ ev m' a f f', m.PollOk ev → step m ev = some m' → m.futures a = some f →
      f.last = .ready → m'.futures a = some f' → f'.last = .ready) ∧
    (0 < m.guards → (step m .dropGuard).isSome) := by
  have hex : m.guards + m.leaked = m.inner.locked.toNat := exclusive_of_reach h
  have hw := waits_of_reach h
  refine ⟨?_, ?_, hw.nodup, fun a ha => ?_, fun ev m' a f f' hok hs hf hr hf' => ?_, hw.dropGuard⟩
  · rw [hex]
    exact Bool.toNat_le m.inner.locked
  · rw [hex]
    cases m.inner.locked <;> simp
  · obtain ⟨f, w, woken, hf, hq, hwaker, hlast⟩ := hw.waiting a ha
    exact ⟨f, w, hf, hq, hwaker, by rw [hlast]; rfl⟩
  · exact ready_next hok (step_next hs) hf hr hf'

/-- A guard and two futures that wait behind it. -/
theorem excludes_two : ∃ m : Mutex 4 (Fin 3) (Fin 3), Reach step init m ∧
    m.inner.waiters.toList = [1, 2] ∧ m.guards + m.leaked ≤ 1 ∧
    (step m .dropGuard).isSome := by
  have hobs : ((exec step (init : Mutex 4 (Fin 3) (Fin 3))
      [.lock 0, .poll 0 0, .lock 1, .poll 1 1, .lock 2, .poll 2 2]).map fun m =>
        (m.inner.waiters.toList, m.guards)) = some ([1, 2], 1) := by decide +kernel
  obtain ⟨m, hexec, hobs⟩ := Option.map_eq_some_iff.mp hobs
  obtain ⟨hws, hg⟩ := Prod.mk.inj hobs
  have hreach : Reach step init m := reach_of_exec _ hexec
  have h := excludes hreach
  exact ⟨m, hreach, hws, h.1, h.2.2.2.2.2 (by omega)⟩

/-! ### Stranded waiters -/

/-- Each future that waits is in the queue or has been woken, and if nobody
has the lock while some future waits, one that waits has been woken. -/
structure NotStranded (m : Mutex N A W) : Prop where
  queued_or_woken : ∀ a, Pending m.futures a → a ∈ m.inner.waiters.toList ∨ Woken m.futures a
  some_woken : m.inner.locked = false → (∃ a, Pending m.futures a) → ∃ a, Woken m.futures a

/-- A guard has popped the future at `a`. -/
def Popped (m : Mutex N A W) (a : A) : Prop :=
  ∃ f, m.futures a = some f ∧ f.queued = true ∧ a ∉ m.inner.waiters.toList

/-- A popped future is not polled while somebody has the lock, and the only
woken future is not dropped while nobody has it and another one waits. -/
def StepOk (m : Mutex N A W) : MutexEvent A W → Prop
  | .poll a _ => m.inner.locked = true → ¬m.Popped a
  | .dropFuture a => m.inner.locked = false → Woken m.futures a →
    (∃ b, b ≠ a ∧ Pending m.futures b) → ∃ b, b ≠ a ∧ Woken m.futures b
  | _ => True

namespace NotStranded

variable {m : Mutex N A W} {a b : A}

omit [DecidableEq W] in
/-- What is done to one future leaves the others queued or woken. -/
theorem other (h : m.NotStranded) (hne : b ≠ a) (o : Option (LockFuture W))
    (hb : Pending (update m.futures a o) b) :
    b ∈ m.inner.waiters.toList ∨ Woken (update m.futures a o) b := by
  rcases h.queued_or_woken b ((pending_update_ne hne o).mp hb) with hq | hwk
  · exact Or.inl hq
  · exact Or.inr ((woken_update_ne hne o).mpr hwk)

omit [DecidableEq W] in
theorem lock (h : m.NotStranded) (hf : m.futures a = none) :
    NotStranded { m with futures := update m.futures a (some ⟨.new, .unpolled⟩) } := by
  have hne : ∀ b, Pending (update m.futures a (some ⟨.new, .unpolled⟩)) b → b ≠ a :=
    fun b hb => ne_of_pending_update hb fun g hg => by
      rw [← Option.some.inj hg]
      rfl
  refine ⟨fun b hb => h.other (hne b hb) _ hb, fun hl ⟨b, hb⟩ => ?_⟩
  obtain ⟨c, hc⟩ := h.some_woken hl ⟨b, (pending_update_ne (hne b hb) _).mp hb⟩
  have hca : c ≠ a := by
    rintro rfl
    obtain ⟨f, hf', _⟩ := hc
    rw [hf] at hf'
    cases hf'
  exact ⟨c, (woken_update_ne hca _).mpr hc⟩

omit [DecidableEq W] in
/-- A future is dropped; if it was the only one woken, nobody else waits. -/
theorem dropFuture (hw : m.Waits) (h : m.NotStranded) {f : LockFuture W} {ws : BoundedVec A N}
    (hok : m.StepOk (.dropFuture a)) (hf : m.futures a = some f)
    (hws : ws.toList = (if f.queued then m.inner.waiters.toList.filter (· ≠ a)
      else m.inner.waiters.toList)) :
    NotStranded { m with
      inner := { m.inner with waiters := ws }, futures := update m.futures a none } := by
  have hne : ∀ b, Pending (update m.futures a none) b → b ≠ a :=
    fun b hb => ne_of_pending_update hb fun _ hg => by cases hg
  refine ⟨fun b hb => ?_, fun hl ⟨b, hb⟩ => ?_⟩
  · rcases h.other (hne b hb) _ hb with hq | hwk
    · exact Or.inl ((hw.mem_retain hf hws).mpr ⟨hq, hne b hb⟩)
    · exact Or.inr hwk
  · have hb' := (pending_update_ne (hne b hb) _).mp hb
    obtain ⟨c, hc⟩ := h.some_woken hl ⟨b, hb'⟩
    by_cases hca : c = a
    · obtain ⟨d, hd, hwk⟩ := hok hl (hca ▸ hc) ⟨b, hne b hb, hb'⟩
      exact ⟨d, (woken_update_ne hd _).mpr hwk⟩
    · exact ⟨c, (woken_update_ne hca _).mpr hc⟩

omit [DecidableEq A] in
/-- The guard goes, and the first waiter is woken. -/
theorem wakeFirst (hw : m.Waits) (h : m.NotStranded) {f : LockFuture W} {ws : BoundedVec A N}
    (hws : m.inner.waiters.toList = a :: ws.toList) (hf : m.futures a = some f) (guards : ℕ) :
    NotStranded { m with
      inner := ⟨false, ws⟩, futures := wakeByRef f.waker m.futures, guards } := by
  have hwait : Waiting m.futures a := hw.waiting a (hws ▸ List.mem_cons_self)
  refine ⟨fun b hb => ?_, fun _ _ => ⟨a, hwait.woken hf⟩⟩
  rcases h.queued_or_woken b ((pending_wakeByRef _).mp hb) with hq | hwk
  · rw [hws] at hq
    rcases List.mem_cons.mp hq with rfl | hq
    · exact Or.inr (hwait.woken hf)
    · exact Or.inl hq
  · exact Or.inr (hwk.wakeByRef _)

theorem next {m' : Mutex N A W} {ev : MutexEvent A W} (hw : m.Waits) (h : m.NotStranded)
    (hok : m.StepOk ev) (hn : Next m ev m') : m'.NotStranded := by
  cases hn with
  | lock hf => exact h.lock hf
  | @acquire a w f f' ws hf hl hws =>
    refine ⟨fun b hb => ?_, fun hl' _ => by cases hl'⟩
    have hne : b ≠ a := ne_of_pending_update hb fun g hg => by
      rw [← Option.some.inj hg]
      rfl
    rcases h.other hne _ hb with hq | hwk
    · exact Or.inl ((hw.mem_retain hf hws).mpr ⟨hq, hne⟩)
    · exact Or.inr hwk
  | @enqueue a w f ws hf hl hq hws =>
    refine ⟨fun b hb => ?_, fun hl' _ => by cases hl'⟩
    change b ∈ ws.toList ∨ _
    rw [hws, List.mem_append, List.mem_singleton]
    by_cases hne : b = a
    · exact Or.inl (Or.inr hne)
    · exact (h.other hne _ hb).imp_left Or.inl
  | @repoll a w f hf hl hq =>
    refine ⟨fun b hb => ?_, fun hl' _ => ?_⟩
    · by_cases hne : b = a
      · rw [hne]
        exact Or.inl (Decidable.of_not_not fun ha => hok hl ⟨f, hf, hq, ha⟩)
      · exact h.other hne _ hb
    · rw [show m.inner.locked = false from hl'] at hl
      cases hl
  | dropFuture hf hws => exact h.dropFuture hw hok hf hws
  | release _ hnil =>
    refine ⟨h.queued_or_woken, fun _ ⟨b, hb⟩ => ⟨b, ?_⟩⟩
    rcases h.queued_or_woken b hb with hq | hwk
    · rw [hnil] at hq
      cases hq
    · exact hwk
  | wakeFirst _ hws hf => exact h.wakeFirst hw hws hf _
  | forget _ => exact ⟨h.queued_or_woken, h.some_woken⟩

end NotStranded

/-- A step that strands nobody meets the condition. -/
theorem StepOk.of_notStranded {m m' : Mutex N A W} {ev : MutexEvent A W} (hn : Next m ev m')
    (h : m'.NotStranded) : m.StepOk ev := by
  cases hn with
  | acquire _ hl _ =>
    intro hl'
    rw [hl] at hl'
    cases hl'
  | @enqueue a w f ws hf _ hq _ =>
    rintro - ⟨g, hg, hqg, _⟩
    rw [Option.some.inj (hf.symm.trans hg), hqg] at hq
    cases hq
  | @repoll a w f hf _ _ =>
    rintro - ⟨g, hg, hqg, ha⟩
    rcases h.queued_or_woken a ⟨_, update_self .., rfl⟩ with hmem | ⟨f', hf', hwk⟩
    · exact ha hmem
    · simp only [update_self, Option.some.injEq] at hf'
      rw [← hf'] at hwk
      cases hwk
  | @dropFuture a f ws hf _ =>
    rintro hl - ⟨b, hne, hb⟩
    obtain ⟨c, hc⟩ := h.some_woken hl ⟨b, (pending_update_ne hne _).mpr hb⟩
    have hca : c ≠ a := by
      rintro rfl
      obtain ⟨g, hg, _⟩ := hc
      simp only [update_self, reduceCtorEq] at hg
    exact ⟨c, hca, (woken_update_ne hca _).mp hc⟩
  | _ => trivial

omit [DecidableEq A] [DecidableEq W] in
theorem notStranded_init : (init : Mutex N A W).NotStranded := by
  have hnone : ∀ a, ¬Pending (init : Mutex N A W).futures a := by
    rintro a ⟨f, hf, _⟩
    cases hf
  exact ⟨fun a ha => absurd ha (hnone a), fun _ ⟨a, ha⟩ => absurd ha (hnone a)⟩

/-- **No waiter is stranded**, in every state that a run visits, exactly when
the run neither polls a popped future while somebody has the lock nor drops
the only woken future while nobody has it and another one waits. -/
theorem not_stranded_iff (es : List (MutexEvent A W)) :
    Always step NotStranded (init : Mutex N A W) es ↔
      Along step StepOk (init : Mutex N A W) es := by
  refine always_iff_along (I := fun m => Waits m ∧ NotStranded m) (fun m hI => hI.2) ?_ ?_
    ⟨waits_init, notStranded_init⟩
  · intro m ev m' ⟨hw, h⟩ hok hs
    exact ⟨hw.next (step_next hs), h.next hw hok (step_next hs)⟩
  · intro m ev m' _ hs h
    exact .of_notStranded (step_next hs) h

/-- The future at 1 waits behind a guard and is woken; it is polled when the
future at 2 has taken the lock, whose guard then goes. -/
def barging : List (MutexEvent (Fin 3) (Fin 3)) :=
  [.lock 0, .poll 0 0, .lock 1, .poll 1 1, .dropGuard, .lock 2, .poll 2 2, .poll 1 1, .dropGuard]

/-- The futures at 1 and 2 wait behind a guard; the one that is woken is
dropped. -/
def cancelled : List (MutexEvent (Fin 3) (Fin 3)) :=
  [.lock 0, .poll 0 0, .lock 1, .poll 1 1, .lock 2, .poll 2 2, .dropGuard, .dropFuture 1]

/-- What a run leaves: a future, the queue, `locked`, and whether nobody is
woken. -/
def leaves (a : Fin 3) (m : Mutex 4 (Fin 3) (Fin 3)) :
    Option (LockFuture (Fin 3)) × List (Fin 3) × Bool × Bool :=
  (m.futures a, m.inner.waiters.toList, m.inner.locked,
    decide (∀ b, ((m.futures b).any fun f => f.last.isWoken) = false))

theorem stranded_of_exec {es : List (MutexEvent (Fin 3) (Fin 3))} {a : Fin 3} {ws : List (Fin 3)}
    (h : (exec step init es).map (leaves a) =
      some (some ⟨⟨true, some a⟩, .pending a false⟩, ws, false, true)) :
    ∃ m : Mutex 4 (Fin 3) (Fin 3), exec step init es = some m ∧
      m.futures a = some ⟨⟨true, some a⟩, .pending a false⟩ ∧ m.inner.waiters.toList = ws ∧
      m.inner.locked = false ∧ (¬∃ b, Woken m.futures b) ∧
      ¬Always step NotStranded (init : Mutex 4 (Fin 3) (Fin 3)) es := by
  obtain ⟨m, hexec, hobs⟩ := Option.map_eq_some_iff.mp h
  obtain ⟨hf, hobs⟩ := Prod.mk.inj hobs
  obtain ⟨hws, hobs⟩ := Prod.mk.inj hobs
  obtain ⟨hl, hnone⟩ := Prod.mk.inj hobs
  have hwoken : ¬∃ b, Woken m.futures b := by
    rintro ⟨b, f, hfb, hwk⟩
    have hb := of_decide_eq_true hnone b
    rw [hfb, Option.any_some, hwk] at hb
    cases hb
  refine ⟨m, hexec, hf, hws, hl, hwoken, fun halways => ?_⟩
  exact hwoken ((halways.of_exec hexec).some_woken hl ⟨a, _, hf, rfl⟩)

/-- After `barging` the future at 1 is neither queued nor woken, after
`cancelled` the one at 2 is queued; both wait for a mutex that nobody has, and
nobody has been woken. -/
theorem waiter_stranded :
    (∃ m : Mutex 4 (Fin 3) (Fin 3), exec step init barging = some m ∧
      m.futures 1 = some ⟨⟨true, some 1⟩, .pending 1 false⟩ ∧ m.inner.waiters.toList = [] ∧
      m.inner.locked = false ∧ (¬∃ b, Woken m.futures b) ∧
      ¬Always step NotStranded (init : Mutex 4 (Fin 3) (Fin 3)) barging) ∧
    (∃ m : Mutex 4 (Fin 3) (Fin 3), exec step init cancelled = some m ∧
      m.futures 2 = some ⟨⟨true, some 2⟩, .pending 2 false⟩ ∧ m.inner.waiters.toList = [2] ∧
      m.inner.locked = false ∧ (¬∃ b, Woken m.futures b) ∧
      ¬Always step NotStranded (init : Mutex 4 (Fin 3) (Fin 3)) cancelled) :=
  ⟨stranded_of_exec (by decide +kernel), stranded_of_exec (by decide +kernel)⟩

end Mutex
end RtAsync

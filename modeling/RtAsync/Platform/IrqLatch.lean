/-
# The interrupt latch

`platform/src/irq.rs`: `IrqLatch`, which a task polls and an interrupt handler
notifies. What a poll does with interrupts disabled is one step; the interrupt
may come before it and after it, and so may another poll, of a task that
preempts. The notifications are numbered, and each `Ready` is kept with those
that its poll consumed.

Key definitions: `IrqLatch.notify`, `IrqLatch.pollMasked`, `Latch.step`,
`Latch.NotAsleep`.
Key theorems: `Latch.step_next`, `Latch.Sound.next`, `Latch.Awaits.next`,
`Latch.ticks_le`, `Latch.no_interrupt_lost`.
-/
import Mathlib.Algebra.GroupWithZero.Nat
import RtAsync.Futures.Poll
import RtAsync.Lib.Transition
import RtAsync.Platform.WakerSlot

namespace RtAsync

open Transition (Reach Steps exec)

variable {W : Type}

/-! ### The source -/

structure IrqLatch (W : Type) where
  pending : Bool
  slot : WakerSlot W
  deriving DecidableEq

namespace IrqLatch

def new : IrqLatch W := ⟨false, .new⟩

/-- `notify`, and the waker it wakes. -/
def notify (self : IrqLatch W) : Option (IrqLatch W × Option W) :=
  self.slot.wake.map fun (slot, woken) => (⟨true, slot⟩, woken)

/-- `poll` from `disable_interrupts` to `enable_interrupts`. -/
def pollMasked (self : IrqLatch W) (cx : W) : Option (IrqLatch W × Poll Unit) :=
  (self.slot.register cx).bind fun slot =>
    if self.pending then slot.unregister.map fun slot => (⟨false, slot⟩, .ready ())
    else some (⟨false, slot⟩, .pending)

end IrqLatch

/-! ### A latch with its polls -/

/-- The next access of `IrqLatch::poll`. -/
inductive LatchPc
  /-- `pending.swap(0)` of the fast path. -/
  | fast
  /-- What it does with interrupts disabled. -/
  | masked
  | done (result : Poll Unit)
  deriving DecidableEq

/-- The accesses that a poll has still to make at most, its return with them. -/
def LatchPc.left : LatchPc → ℕ
  | .fast => 3
  | .masked => 2
  | .done _ => 1

/-- A poll in progress with waker `cx`: whether `cx` has been woken since it
began, and the notifications it consumed. -/
structure LatchPoll (W : Type) where
  cx : W
  woken : Bool
  pc : LatchPc
  taken : List ℕ
  deriving DecidableEq

/-- A latch, the polls in progress, innermost first, and how the last one that
returned ended; the number of notifications, those that no poll has consumed
and those that each `Ready` did. -/
structure Latch (W : Type) where
  latch : IrqLatch W
  polls : List (LatchPoll W)
  last : LastPoll W
  notified : ℕ
  unconsumed : List ℕ
  readies : List (List ℕ)

/-- `tick` is the next access of the innermost poll. -/
inductive LatchEvent (W : Type)
  | poll (w : W)
  | tick
  | notify

def LatchEvent.isPoll : LatchEvent W → Bool
  | poll _ => true
  | _ => false

def LatchEvent.isTick : LatchEvent W → Bool
  | tick => true
  | _ => false

def LatchPoll.wake [DecidableEq W] (w : W) (f : LatchPoll W) : LatchPoll W :=
  { f with woken := f.woken || f.cx = w }

namespace Latch

def init : Latch W := ⟨.new, [], .unpolled, 0, [], []⟩

/-- The next access of the poll `f`, `fs` being the polls below it. -/
def tickStep (l : Latch W) (f : LatchPoll W) (fs : List (LatchPoll W)) : Option (Latch W) :=
  match f.pc with
  | .fast =>
    if l.latch.pending then some { l with
      latch := { l.latch with pending := false }
      polls := { f with pc := .done (.ready ()), taken := l.unconsumed } :: fs
      unconsumed := [] }
    else some { l with polls := { f with pc := .masked } :: fs }
  | .masked => (l.latch.pollMasked f.cx).map fun (latch, result) => match result with
    | .ready () => { l with
      latch
      polls := { f with pc := .done (.ready ()), taken := l.unconsumed } :: fs
      unconsumed := [] }
    | .pending => { l with latch, polls := { f with pc := .done .pending } :: fs }
  | .done (.ready ()) =>
    some { l with polls := fs, last := .ready, readies := f.taken :: l.readies }
  | .done .pending => some { l with polls := fs, last := .pending f.cx f.woken }

/-- The wake of `woken`, if there is one. -/
def wakeAll [DecidableEq W] (l : Latch W) (woken : Option W) : Latch W :=
  match woken with
  | none => l
  | some w => { l with polls := l.polls.map (·.wake w), last := l.last.wake w }

variable [DecidableEq W]

/-- An access of a waker slot that is not initialised has no step. -/
def step (l : Latch W) : LatchEvent W → Option (Latch W)
  | .poll w => some { l with polls := ⟨w, false, .fast, []⟩ :: l.polls }
  | .tick => match l.polls with
    | [] => none
    | f :: fs => l.tickStep f fs
  | .notify => l.latch.notify.map fun (latch, woken) =>
    wakeAll { l with
      latch, notified := l.notified + 1, unconsumed := l.notified :: l.unconsumed } woken

/-- What a step can do. -/
inductive Next (l : Latch W) : LatchEvent W → Latch W → Prop
  | poll {w : W} : Next l (.poll w) { l with polls := ⟨w, false, .fast, []⟩ :: l.polls }
  | take {f : LatchPoll W} {fs : List (LatchPoll W)} {slot : WakerSlot W} : l.polls = f :: fs →
      f.pc = .fast ∨ f.pc = .masked → l.latch.pending = true → (l.latch.slot.Ok → slot.Ok) →
      Next l .tick { l with
        latch := ⟨false, slot⟩
        polls := { f with pc := .done (.ready ()), taken := l.unconsumed } :: fs
        unconsumed := [] }
  | miss {f : LatchPoll W} {fs : List (LatchPoll W)} : l.polls = f :: fs → f.pc = .fast →
      Next l .tick { l with polls := { f with pc := .masked } :: fs }
  | register {f : LatchPoll W} {fs : List (LatchPoll W)} {slot : WakerSlot W} :
      l.polls = f :: fs → f.pc = .masked → l.latch.pending = false →
      l.latch.slot.register f.cx = some slot →
      Next l .tick { l with
        latch := ⟨false, slot⟩, polls := { f with pc := .done .pending } :: fs }
  | ready {f : LatchPoll W} {fs : List (LatchPoll W)} : l.polls = f :: fs →
      f.pc = .done (.ready ()) →
      Next l .tick { l with polls := fs, last := .ready, readies := f.taken :: l.readies }
  | pending {f : LatchPoll W} {fs : List (LatchPoll W)} : l.polls = f :: fs →
      f.pc = .done .pending →
      Next l .tick { l with polls := fs, last := .pending f.cx f.woken }
  | notify {slot : WakerSlot W} {woken : Option W} : l.latch.slot.wake = some (slot, woken) →
      Next l .notify (wakeAll { l with
        latch := ⟨true, slot⟩, notified := l.notified + 1
        unconsumed := l.notified :: l.unconsumed } woken)

omit [DecidableEq W] in
theorem pollMasked_pending {latch latch' : IrqLatch W} {cx : W} {result : Poll Unit}
    (hpend : latch.pending = true) (h : latch.pollMasked cx = some (latch', result)) :
    ∃ slot, (latch.slot.Ok → slot.Ok) ∧ latch' = ⟨false, slot⟩ ∧ result = .ready () := by
  obtain ⟨slot₁, hreg, h⟩ := Option.bind_eq_some_iff.mp h
  rw [if_pos hpend] at h
  obtain ⟨slot, hunreg, h⟩ := Option.map_eq_some_iff.mp h
  obtain ⟨rfl, rfl⟩ := Prod.mk.inj h
  refine ⟨slot, fun hok => ?_, rfl, rfl⟩
  obtain ⟨s₁, n, hs₁, hw, hok₁⟩ := hok.register cx
  obtain rfl : slot₁ = s₁ := Option.some.inj (hreg.symm.trans hs₁)
  obtain ⟨s₂, hs₂, -, hok₂⟩ := hok₁.unregister (by rw [hw]; rfl)
  obtain rfl : slot = s₂ := Option.some.inj (hunreg.symm.trans hs₂)
  exact hok₂

theorem step_next {l l' : Latch W} {ev : LatchEvent W} (h : step l ev = some l') :
    Next l ev l' := by
  cases ev with
  | poll w => exact Option.some.inj h ▸ .poll
  | notify =>
    obtain ⟨⟨latch, woken⟩, hn, rfl⟩ := Option.map_eq_some_iff.mp h
    obtain ⟨⟨slot, w⟩, hw, hp⟩ := Option.map_eq_some_iff.mp hn
    obtain ⟨rfl, rfl⟩ := Prod.mk.inj hp
    exact .notify hw
  | tick =>
    cases hp : l.polls with
    | nil => simp [step, hp] at h
    | cons f fs =>
      simp only [step, hp] at h
      unfold tickStep at h
      cases hpc : f.pc with
      | fast =>
        simp only [hpc] at h
        cases hpend : l.latch.pending with
        | true =>
          simp only [hpend, if_true, Option.some.injEq] at h
          exact h ▸ .take hp (Or.inl hpc) hpend id
        | false =>
          simp only [hpend, Bool.false_eq_true, if_false, Option.some.injEq] at h
          exact h ▸ .miss hp hpc
      | masked =>
        simp only [hpc] at h
        obtain ⟨⟨latch, result⟩, hm, h⟩ := Option.map_eq_some_iff.mp h
        cases hpend : l.latch.pending with
        | true =>
          obtain ⟨slot, hok, rfl, rfl⟩ := pollMasked_pending hpend hm
          exact h ▸ .take hp (Or.inr hpc) hpend hok
        | false =>
          obtain ⟨slot, hreg, hm⟩ := Option.bind_eq_some_iff.mp hm
          rw [hpend, if_neg Bool.false_ne_true] at hm
          obtain ⟨rfl, rfl⟩ := Prod.mk.inj (Option.some.inj hm)
          exact h ▸ .register hp hpc hpend hreg
      | done result =>
        cases result with
        | ready u =>
          simp only [hpc, Option.some.injEq] at h
          exact h ▸ .ready hp hpc
        | pending =>
          simp only [hpc, Option.some.injEq] at h
          exact h ▸ .pending hp hpc

/-! ### The waker slot and the notifications -/

omit [DecidableEq W] in
/-- A poll that is going to return `Ready` has consumed a notification, and no
other has. -/
def TookOk (f : LatchPoll W) : Prop := f.pc = .done (.ready ()) ↔ f.taken ≠ []

omit [DecidableEq W] in
/-- A poll that is not going to return `Ready` has consumed nothing. -/
theorem TookOk.taken_eq_nil {f : LatchPoll W} (h : TookOk f) (hpc : f.pc ≠ .done (.ready ())) :
    f.taken = [] := by
  by_contra hne
  exact hpc (h.mpr hne)

omit [DecidableEq W] in
/-- It goes on without consuming one. -/
theorem TookOk.setPc {f : LatchPoll W} (h : TookOk f) {pc : LatchPc}
    (hpc : f.pc ≠ .done (.ready ())) (hpc' : pc ≠ .done (.ready ())) :
    TookOk { f with pc := pc } :=
  iff_of_false hpc' fun hne => hne (h.taken_eq_nil hpc)

omit [DecidableEq W] in
/-- The slot is sound, `pending` tells of the notifications that no poll has
consumed, and each is one of these or was consumed by one poll. -/
structure Sound (l : Latch W) : Prop where
  slot : l.latch.slot.Ok
  pending : l.latch.pending = true ↔ l.unconsumed ≠ []
  took : ∀ f ∈ l.polls, TookOk f
  readies : ∀ b ∈ l.readies, b ≠ []
  accounted : (l.readies.flatten ++ ((l.polls.map LatchPoll.taken).flatten ++
    l.unconsumed)).Perm (List.range l.notified)

section Wake

variable {l : Latch W} {woken : Option W}

@[simp] theorem wakeAll_latch : (wakeAll l woken).latch = l.latch := by
  cases woken <;> rfl

@[simp] theorem wakeAll_notified : (wakeAll l woken).notified = l.notified := by
  cases woken <;> rfl

@[simp] theorem wakeAll_unconsumed : (wakeAll l woken).unconsumed = l.unconsumed := by
  cases woken <;> rfl

@[simp] theorem wakeAll_readies : (wakeAll l woken).readies = l.readies := by
  cases woken <;> rfl

@[simp] theorem wakeAll_taken :
    (wakeAll l woken).polls.map LatchPoll.taken = l.polls.map LatchPoll.taken := by
  cases woken with
  | none => rfl
  | some w => simp [wakeAll, LatchPoll.wake, Function.comp_def]

@[simp] theorem length_wakeAll_polls : (wakeAll l woken).polls.length = l.polls.length := by
  cases woken with
  | none => rfl
  | some w => simp [wakeAll]

/-- A waker that has not been woken yet was not woken before, and not now. -/
theorem wakeAll_last_pending {w : W} (h : (wakeAll l woken).last = .pending w false) :
    l.last = .pending w false ∧ woken ≠ some w := by
  cases woken with
  | none => exact ⟨h, by simp⟩
  | some v =>
    obtain ⟨hl, hne⟩ := LastPoll.of_wake_eq_pending (l := l.last) h
    exact ⟨hl, fun heq => hne (Option.some.inj heq)⟩

/-- A poll after the wake is one before it. -/
theorem of_mem_wakeAll {g : LatchPoll W} (h : g ∈ (wakeAll l woken).polls) :
    ∃ f ∈ l.polls, g.cx = f.cx ∧ g.pc = f.pc ∧ g.taken = f.taken ∧
      g.woken = (f.woken || woken = some f.cx) := by
  cases woken with
  | none => exact ⟨g, h, rfl, rfl, rfl, by simp⟩
  | some w =>
    obtain ⟨f, hf, rfl⟩ := List.mem_map.mp h
    refine ⟨f, hf, rfl, rfl, rfl, ?_⟩
    simp [LatchPoll.wake, eq_comm]

end Wake

theorem Sound.next {l l' : Latch W} {ev : LatchEvent W} (h : l.Sound) (hn : Next l ev l') :
    l'.Sound := by
  have hacc := h.accounted
  cases hn with
  | poll =>
    refine ⟨h.slot, h.pending, fun f hf => ?_, h.readies, hacc⟩
    rcases List.mem_cons.mp hf with rfl | hf
    · simp [TookOk]
    · exact h.took f hf
  | @take f fs slot hp hpc hpend hok =>
    have hf : f ∈ l.polls := by simp [hp]
    have htaken : f.taken = [] := (h.took f hf).taken_eq_nil (by
      rcases hpc with hpc | hpc <;> simp [hpc])
    refine ⟨hok h.slot, by simp, fun g hg => ?_, h.readies, ?_⟩
    · rcases List.mem_cons.mp hg with rfl | hg
      · simpa [TookOk] using h.pending.mp hpend
      · exact h.took g (hp ▸ List.mem_cons_of_mem f hg)
    · rw [hp, List.map_cons, List.flatten_cons, htaken, List.nil_append] at hacc
      refine (List.Perm.append_left _ ?_).trans hacc
      rw [List.map_cons, List.flatten_cons, List.append_nil]
      exact List.perm_append_comm
  | @miss f fs hp hpc =>
    have hf : f ∈ l.polls := by simp [hp]
    refine ⟨h.slot, h.pending, fun g hg => ?_, h.readies, ?_⟩
    · rcases List.mem_cons.mp hg with rfl | hg
      · exact (h.took f hf).setPc (by simp [hpc]) (by simp)
      · exact h.took g (hp ▸ List.mem_cons_of_mem f hg)
    · rw [hp] at hacc
      exact hacc
  | @register f fs slot hp hpc hpend hreg =>
    have hf : f ∈ l.polls := by simp [hp]
    obtain ⟨s, n, hs, -, hok⟩ := h.slot.register f.cx
    obtain rfl : slot = s := Option.some.inj (hreg.symm.trans hs)
    refine ⟨hok, ?_, fun g hg => ?_, h.readies, ?_⟩
    · have hpending := h.pending
      rwa [hpend] at hpending
    · rcases List.mem_cons.mp hg with rfl | hg
      · exact (h.took f hf).setPc (by simp [hpc]) (by simp)
      · exact h.took g (hp ▸ List.mem_cons_of_mem f hg)
    · rw [hp] at hacc
      exact hacc
  | @ready f fs hp hpc =>
    have hf : f ∈ l.polls := by simp [hp]
    refine ⟨h.slot, h.pending, fun g hg => h.took g (hp ▸ List.mem_cons_of_mem f hg),
      fun b hb => ?_, ?_⟩
    · rcases List.mem_cons.mp hb with rfl | hb
      · exact (h.took f hf).mp hpc
      · exact h.readies b hb
    · rw [hp, List.map_cons, List.flatten_cons, List.append_assoc] at hacc
      rw [List.flatten_cons, List.append_assoc]
      exact (List.perm_append_comm_assoc _ _ _).trans hacc
  | @pending f fs hp hpc =>
    have hf : f ∈ l.polls := by simp [hp]
    have htaken : f.taken = [] := (h.took f hf).taken_eq_nil (by simp [hpc])
    refine ⟨h.slot, h.pending, fun g hg => h.took g (hp ▸ List.mem_cons_of_mem f hg),
      h.readies, ?_⟩
    rw [hp, List.map_cons, List.flatten_cons, htaken, List.nil_append] at hacc
    exact hacc
  | @notify slot woken hw =>
    obtain ⟨s, hs, -, -, hok⟩ := h.slot.wake
    obtain ⟨rfl, -⟩ : slot = s ∧ _ := Prod.mk.inj (Option.some.inj (hw.symm.trans hs))
    refine ⟨by simpa using hok, by simp, fun g hg => ?_, by simpa using h.readies, ?_⟩
    · obtain ⟨f, hf, -, hpc, htk, -⟩ := of_mem_wakeAll hg
      have htook := h.took f hf
      unfold TookOk at htook ⊢
      rwa [hpc, htk]
    · simp only [wakeAll_readies, wakeAll_taken, wakeAll_unconsumed, wakeAll_notified]
      rw [List.range_succ, ← List.append_assoc]
      refine (List.perm_middle.trans (List.Perm.cons _ ?_)).trans
        (List.perm_append_singleton _ _).symm
      rwa [List.append_assoc]

theorem sound_of_reach {l : Latch W} (h : Reach step init l) : l.Sound :=
  h.invariant (fun _ _ _ hs hstep => hs.next (step_next hstep))
    ⟨.new, by simp [init, IrqLatch.new], fun _ hf => by (cases hf), fun _ hb => by (cases hb),
      List.Perm.refl _⟩

/-! ### A single awaiting task -/

omit [DecidableEq W] in
/-- Polls of one task are one after another. -/
def Single (l : Latch W) : LatchEvent W → Prop
  | .poll _ => l.polls = []
  | _ => True

omit [DecidableEq W] in
/-- There is no notification, and the next one wakes `w`. -/
def Registered (l : Latch W) (w : W) : Prop :=
  l.latch.pending = false ∧ ∃ n, l.latch.slot.waker = some (n, w)

omit [DecidableEq W] in
/-- A poll that returned `Pending`, or is going to, and whose waker has not been
woken since it began, has it registered. -/
structure Awaits (l : Latch W) : Prop where
  single : l.polls.length ≤ 1
  asleep : l.polls = [] → ∀ w, l.last = .pending w false → Registered l w
  returning : ∀ f ∈ l.polls, f.pc = .done .pending → f.woken = false → Registered l f.cx

omit [DecidableEq W] in
theorem Awaits.below {l : Latch W} (h : l.Awaits) {f : LatchPoll W} {fs : List (LatchPoll W)}
    (hp : l.polls = f :: fs) : fs = [] := by
  have hle := h.single
  rw [hp, List.length_cons] at hle
  exact List.eq_nil_of_length_eq_zero (by omega)

theorem Awaits.next {l l' : Latch W} {ev : LatchEvent W} (hs : l.Sound) (h : l.Awaits)
    (hok : l.Single ev) (hn : Next l ev l') : l'.Awaits := by
  cases hn with
  | poll =>
    have hnil : l.polls = [] := hok
    refine ⟨by simp [hnil], by simp, fun f hf hpc => ?_⟩
    simp only [hnil, List.mem_singleton] at hf
    rw [hf] at hpc
    cases hpc
  | take hp _ _ _ =>
    obtain rfl := h.below hp
    exact ⟨by simp, by simp, by simp⟩
  | miss hp _ =>
    obtain rfl := h.below hp
    exact ⟨by simp, by simp, by simp⟩
  | @register f fs slot hp hpc hpend hreg =>
    obtain rfl := h.below hp
    obtain ⟨s, n, hreg', hw, -⟩ := hs.slot.register f.cx
    obtain rfl : slot = s := Option.some.inj (hreg.symm.trans hreg')
    refine ⟨by simp, by simp, fun g hg _ _ => ?_⟩
    obtain rfl := List.mem_singleton.mp hg
    exact ⟨rfl, n, hw⟩
  | ready hp _ =>
    obtain rfl := h.below hp
    exact ⟨by simp, by simp, by simp⟩
  | @pending f fs hp hpc =>
    obtain rfl := h.below hp
    refine ⟨by simp, fun _ w hlast => ?_, by simp⟩
    obtain ⟨rfl, hwoken⟩ := LastPoll.pending.inj hlast
    exact h.returning f (by simp [hp]) hpc hwoken
  | @notify slot woken hw =>
    obtain ⟨s, hwake, -⟩ := hs.slot.wake
    obtain ⟨-, rfl⟩ : slot = s ∧ woken = _ := Prod.mk.inj (Option.some.inj (hw.symm.trans hwake))
    -- whoever is registered is woken
    have hreg : ∀ w, Registered l w → l.latch.slot.waker.map Prod.snd = some w := by
      rintro w ⟨-, n, hn⟩
      rw [hn]
      rfl
    refine ⟨by simpa using h.single, fun hnil w hlast => ?_, fun g hg hpc hwoken => ?_⟩
    · have hnil' : l.polls = [] := by
        rw [← List.length_eq_zero_iff] at hnil ⊢
        simpa using hnil
      obtain ⟨hlast', hne⟩ := wakeAll_last_pending hlast
      exact absurd (hreg w (h.asleep hnil' w hlast')) hne
    · obtain ⟨f, hf, hcx, hpcf, -, hw'⟩ := of_mem_wakeAll hg
      rw [hwoken, eq_comm, Bool.or_eq_false_iff, decide_eq_false_iff_not] at hw'
      exact absurd (hreg f.cx (h.returning f hf (hpcf ▸ hpc) hw'.1)) hw'.2

omit [DecidableEq W] in
/-- When the last poll has returned `Pending` and its waker has not been woken
since it began, there is no notification. -/
def NotAsleep (l : Latch W) : Prop :=
  l.polls = [] → ∀ w, l.last = .pending w false → l.latch.pending = false

theorem notAsleep_of_single {l : Latch W} (h : Steps step Single init l) : l.NotAsleep := by
  have hinv : l.Sound ∧ l.Awaits := by
    refine h.invariant (I := fun l => Sound l ∧ Awaits l) (fun l ev l' hI hok hs => ?_)
      ⟨sound_of_reach (.refl _), by simp [init], by simp [init], by simp [init]⟩
    exact ⟨hI.1.next (step_next hs), hI.2.next hI.1 hok (step_next hs)⟩
  exact fun hnil w hlast => (hinv.2.asleep hnil w hlast).1

/-! ### Every step is there -/

omit [DecidableEq W] in
theorem Sound.tickStep_isSome {l : Latch W} (h : l.Sound) (f : LatchPoll W)
    (fs : List (LatchPoll W)) : (l.tickStep f fs).isSome := by
  unfold tickStep
  cases hpc : f.pc with
  | fast => cases l.latch.pending <;> rfl
  | masked =>
    obtain ⟨slot, n, hreg, hw, hok⟩ := h.slot.register f.cx
    obtain ⟨slot', hunreg, -⟩ := hok.unregister (by rw [hw]; rfl)
    cases hpend : l.latch.pending with
    | true => simp [IrqLatch.pollMasked, hreg, hpend, hunreg]
    | false => simp [IrqLatch.pollMasked, hreg, hpend]
  | done result => cases result <;> rfl

/-- The slot is read and dropped only when it is initialised. -/
theorem Sound.step_isSome {l : Latch W} (h : l.Sound) :
    (step l .notify).isSome ∧ (l.polls ≠ [] → (step l .tick).isSome) := by
  constructor
  · obtain ⟨s, hs, -⟩ := h.slot.wake
    simp [step, IrqLatch.notify, hs]
  · intro hne
    cases hp : l.polls with
    | nil => exact absurd hp hne
    | cons f fs =>
      simp only [step, hp]
      exact h.tickStep_isSome f fs

/-! ### A poll comes to its end -/

omit [DecidableEq W] in
/-- What an access of a poll does: the poll goes on, with fewer accesses to
make, and is going to return `Ready` exactly where `pending` was set, and
`Pending` only where its waker is registered; or it returns. -/
theorem Sound.tickStep_ends {l : Latch W} (h : l.Sound) (f : LatchPoll W) (fs : List (LatchPoll W)) :
    ∃ l', l.tickStep f fs = some l' ∧
      ((∃ g, l'.polls = g :: fs ∧ g.cx = f.cx ∧ g.pc.left < f.pc.left ∧
        (g.pc = .done (.ready ()) ↔ l.latch.pending = true) ∧
        (g.pc = .done .pending → ∃ n, l'.latch.slot.waker = some (n, f.cx))) ∨
      (f.pc = .done (.ready ()) ∧ l'.polls = fs ∧ l'.last = .ready) ∨
      (f.pc = .done .pending ∧ l'.polls = fs ∧ l'.last = .pending f.cx f.woken)) := by
  cases hpc : f.pc with
  | fast =>
    cases hpend : l.latch.pending with
    | true =>
      exact ⟨_, by simp only [tickStep, hpc, hpend, if_true]; rfl,
        Or.inl ⟨{ f with pc := .done (.ready ()), taken := l.unconsumed }, rfl, rfl, by simp [LatchPc.left],
          by simp, by simp⟩⟩
    | false =>
      exact ⟨_, by simp only [tickStep, hpc, hpend, Bool.false_eq_true, if_false]; rfl,
        Or.inl ⟨{ f with pc := .masked }, rfl, rfl, by simp [LatchPc.left],
          by simp, by simp⟩⟩
  | masked =>
    obtain ⟨slot, n, hreg, hw, hok⟩ := h.slot.register f.cx
    obtain ⟨slot', hunreg, -⟩ := hok.unregister (by rw [hw]; rfl)
    cases hpend : l.latch.pending with
    | true =>
      have hm : l.latch.pollMasked f.cx = some (⟨false, slot'⟩, .ready ()) := by
        simp [IrqLatch.pollMasked, hreg, hpend, hunreg]
      exact ⟨_, by simp only [tickStep, hpc, hm, Option.map_some]; rfl,
        Or.inl ⟨{ f with pc := .done (.ready ()), taken := l.unconsumed }, rfl, rfl, by simp [LatchPc.left],
          by simp, by simp⟩⟩
    | false =>
      have hm : l.latch.pollMasked f.cx = some (⟨false, slot⟩, .pending) := by
        simp [IrqLatch.pollMasked, hreg, hpend]
      exact ⟨_, by simp only [tickStep, hpc, hm, Option.map_some]; rfl,
        Or.inl ⟨{ f with pc := .done .pending }, rfl, rfl, by simp [LatchPc.left],
          by simp, fun _ => ⟨n, hw⟩⟩⟩
  | done result =>
    cases result with
    | ready u => exact ⟨_, by simp only [tickStep, hpc]; rfl, Or.inr (Or.inl ⟨rfl, rfl, rfl⟩)⟩
    | pending => exact ⟨_, by simp only [tickStep, hpc]; rfl, Or.inr (Or.inr ⟨rfl, rfl, rfl⟩)⟩

omit [DecidableEq W] in
/-- The accesses that the polls in progress have still to make at most. -/
def work (l : Latch W) : ℕ := (l.polls.map fun f => f.pc.left).sum

theorem work_wakeAll (l : Latch W) (woken : Option W) : (wakeAll l woken).work = l.work := by
  cases woken with
  | none => rfl
  | some w => simp [work, wakeAll, LatchPoll.wake, Function.comp_def]

omit [DecidableEq W] in
theorem work_goes_on {l l' : Latch W} {f g : LatchPoll W} {fs : List (LatchPoll W)}
    (h : l.polls = f :: fs) (h' : l'.polls = g :: fs) (hlt : g.pc.left < f.pc.left) :
    l'.work + 1 ≤ l.work := by
  rw [work, work, h, h', List.map_cons, List.map_cons, List.sum_cons, List.sum_cons]
  omega

omit [DecidableEq W] in
theorem work_returns {l l' : Latch W} {f : LatchPoll W} {fs : List (LatchPoll W)}
    (h : l.polls = f :: fs) (h' : l'.polls = fs) : l'.work + 1 ≤ l.work := by
  have hpos : 0 < f.pc.left := by cases f.pc <;> exact Nat.succ_pos _
  rw [work, work, h, h', List.map_cons, List.sum_cons]
  omega

/-- Each access is paid for by the poll that makes it. -/
theorem Next.work_le {l l' : Latch W} {ev : LatchEvent W} (h : Next l ev l') :
    l'.work + (if ev.isTick then 1 else 0) ≤ l.work + (if ev.isPoll then 3 else 0) := by
  cases h with
  | poll => exact Nat.le_of_eq (Nat.add_comm 3 l.work)
  | take hp hpc =>
    refine work_goes_on hp rfl ?_
    rcases hpc with hpc | hpc
    · rw [hpc]
      exact Nat.lt_of_sub_eq_succ rfl
    · rw [hpc]
      exact Nat.lt_of_sub_eq_succ rfl
  | miss hp hpc =>
    refine work_goes_on hp rfl ?_
    rw [hpc]
    exact Nat.lt_succ_self 2
  | register hp hpc =>
    refine work_goes_on hp rfl ?_
    rw [hpc]
    exact Nat.lt_succ_self 1
  | ready hp _ => exact work_returns hp rfl
  | pending hp _ => exact work_returns hp rfl
  | notify => exact Nat.le_of_eq (work_wakeAll _ _)

/-- A poll makes three accesses at most, whatever comes between them. -/
theorem ticks_le : ∀ {es : List (LatchEvent W)} {l l' : Latch W}, exec step l es = some l' →
    es.countP LatchEvent.isTick + l'.work ≤ l.work + 3 * es.countP LatchEvent.isPoll
  | [], l, l', he => by
    obtain rfl := Option.some.inj he
    simp
  | ev :: es, l, l', he => by
    obtain ⟨l₁, hs, he⟩ := Option.bind_eq_some_iff.mp he
    have hstep := (step_next hs).work_le
    have hrest := ticks_le he
    rw [List.countP_cons, List.countP_cons]
    split_ifs at hstep ⊢ <;> omega

/-- **No interrupt is lost and the waker slot is sound**, in every state of
every run. Where interrupts are enabled the slot is initialised exactly when
`has_waker` is set, neither a poll nor `notify` reads or drops a slot that is
not, and each waker that was stored is there or was woken or dropped, once.
Each `Ready` has consumed a notification, no notification is consumed twice,
and `pending` is set exactly when one is left. With a single awaiting task, a
notification finds it awake: its last poll did not return `Pending`, or the
waker of that poll has been woken since. Each poll ends, with three accesses at
most: the innermost goes on, to `Ready` exactly where `pending` is set and to
`Pending` only where its waker is registered, or returns what it went on to. -/
theorem no_interrupt_lost {l : Latch W} (h : Reach step init l) :
    (l.latch.slot.waker.isSome ↔ l.latch.slot.hasWaker = true) ∧
    ((step l .notify).isSome ∧ (l.polls ≠ [] → (step l .tick).isSome)) ∧
    (l.latch.slot.waker.toList.map Prod.fst ++ (l.latch.slot.woken ++ l.latch.slot.dropped)).Perm
      (List.range l.latch.slot.stored) ∧
    (∀ b ∈ l.readies, b ≠ []) ∧
    (l.readies.flatten ++ ((l.polls.map LatchPoll.taken).flatten ++ l.unconsumed)).Perm
      (List.range l.notified) ∧
    (∀ f ∈ l.polls, f.pc = .done (.ready ()) ↔ f.taken ≠ []) ∧
    (l.latch.pending = true ↔ l.unconsumed ≠ []) ∧
    (Steps step Single init l → l.polls = [] → ∀ w, l.last = .pending w false →
      l.latch.pending = false) ∧
    (∀ f fs, l.polls = f :: fs → ∃ l', step l .tick = some l' ∧
      ((∃ g, l'.polls = g :: fs ∧ g.cx = f.cx ∧ g.pc.left < f.pc.left ∧
        (g.pc = .done (.ready ()) ↔ l.latch.pending = true) ∧
        (g.pc = .done .pending → ∃ n, l'.latch.slot.waker = some (n, f.cx))) ∨
      (f.pc = .done (.ready ()) ∧ l'.polls = fs ∧ l'.last = .ready) ∨
      (f.pc = .done .pending ∧ l'.polls = fs ∧ l'.last = .pending f.cx f.woken))) ∧
    ∀ es l', exec step l es = some l' →
      es.countP LatchEvent.isTick ≤
        (l.polls.map fun f => f.pc.left).sum + 3 * es.countP LatchEvent.isPoll := by
  have hs := sound_of_reach h
  refine ⟨by rw [hs.slot.init_iff], hs.step_isSome, hs.slot.accounted, hs.readies, hs.accounted,
    hs.took, hs.pending, fun hsingle => notAsleep_of_single hsingle, fun f fs hp => ?_,
    fun es l' he => Nat.le_of_add_right_le (ticks_le he)⟩
  obtain ⟨l', htick, hends⟩ := hs.tickStep_ends f fs
  exact ⟨l', by simpa only [step, hp] using htick, hends⟩

/-- Two polls, the first of which a notification wakes. -/
theorem no_interrupt_lost_two : ∃ l : Latch (Fin 2), Reach step init l ∧
    l.readies = [[0]] ∧ l.latch.pending = true ∧ l.unconsumed ≠ [] := by
  have hobs : ((exec step (init : Latch (Fin 2)) [.poll 0, .tick, .tick, .tick, .notify,
      .poll 0, .tick, .tick, .notify]).map fun l => (l.readies, l.latch.pending)) =
      some ([[0]], true) := by decide +kernel
  obtain ⟨l, hexec, hobs⟩ := Option.map_eq_some_iff.mp hobs
  obtain ⟨hready, hpend⟩ := Prod.mk.inj hobs
  have hreach : Reach step init l := Transition.reach_of_exec _ hexec
  exact ⟨l, hreach, hready, hpend, (no_interrupt_lost hreach).2.2.2.2.2.2.1.mp hpend⟩

end Latch
end RtAsync

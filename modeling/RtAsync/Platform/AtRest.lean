/-
# The hart at rest

A task that awaits the serial port, or an interrupt latch, on the hart: the
accesses of `rx_register_waker` and of `IrqLatch::poll` are made inside its
future, `rx_handler` and `notify` inside an interrupt handler, and what these
wake goes through `wake_task`, the run queue and the software interrupt. When
the hart is in the idle loop, such a task has taken what there was and is
registered for what is to come; and whatever comes while it waits, it is polled
before the hart is idle again.

Key definitions: `SerialReader.source`, `Latch.source`.
Key theorems: `SerialReader.lawful`, `SerialReader.no_byte_waits`,
`Latch.lawful`, `Latch.no_interrupt_waits`.
-/
import RtAsync.Executor.Awaiting
import RtAsync.Platform.IrqLatch
import RtAsync.Platform.SerialRx

namespace RtAsync

open Transition (Reach exec Meets)

variable {N : ℕ} {T V : Type} [DecidableEq T]

omit [DecidableEq T] in
/-- A handler that has interrupted the idle loop. -/
theorem Kernel.not_inside_of_handler {k : Kernel N T V} {c : Option (Call N T)} {t : T}
    (h : k.frames = [.isr c, .base none]) : ¬k.Inside t := by
  rintro ⟨f, hf, ht⟩
  rw [h] at hf
  rcases List.mem_cons.mp hf with rfl | hf
  · cases ht
  · rw [List.mem_singleton.mp hf] at ht
    cases ht

/-- Where every poll was given the waker `t`, the wakes of other wakers leave
the last one alone. -/
theorem LastPoll.wake_of_waker {l : LastPoll T} {t : T} (v : T)
    (h : ∀ w woken, l = .pending w woken → w = t) :
    (∀ w woken, l.wake v = .pending w woken → w = t) ∧
      ((l.wake v).isWoken = true → l.isWoken = true ∨ some v = some t) := by
  cases l with
  | pending w before =>
    obtain rfl := h w before rfl
    refine ⟨fun u woken hu => (LastPoll.pending.inj hu).1.symm, fun hw => ?_⟩
    exact (Bool.or_eq_true_iff.mp hw).imp_right fun hv => congrArg some (of_decide_eq_true hv).symm
  | unpolled => exact ⟨fun _ _ hw => (by cases hw), fun hw => (by cases hw)⟩
  | ready => exact ⟨fun _ _ hw => (by cases hw), fun hw => (by cases hw)⟩

/-! ### The serial port -/

namespace SerialReader

/-- `rx_register_waker` and `rx_handler` as the hart sees them. -/
def source : Source (SerialReader T) (List UInt8) T where
  init := init
  call l w := l.step (.call w)
  tick l := (l.step .tick).map fun l' => (l', l.call.any fun f => f.pc = .masked)
  isr l bytes := (l.rx.rxHandler bytes).map fun (rx, woken) =>
    (wakeAll { l with rx } woken, woken)
  calling l := l.call.isSome
  pending l := l.last.isPending
  woken l := match l.call with
    | some f => f.woken
    | none => l.last.isWoken

/-- Every call is made with the waker of `t`. -/
structure CalledBy (t : T) (l : SerialReader T) : Prop where
  awake : l.Awake
  call : ∀ f ∈ l.call, f.cx = t
  last : ∀ w woken, l.last = .pending w woken → w = t

/-- The last call returned `Pending`, nothing is stored, and the next interrupt
wakes `t`. -/
structure Asleep (t : T) (l : SerialReader T) : Prop where
  call : l.call = none
  last : l.last = .pending t false
  registered : l.rx.Registered t

omit [DecidableEq T] in
/-- A call goes on with its waker, or returns. -/
theorem tickStep_kept {l l' : SerialReader T} {f : RegisterCall T} (h : l.tickStep f = some l') :
    (∃ pc, l'.call = some { f with pc := pc } ∧ l'.last = l.last) ∨
      (l'.call = none ∧ (l'.last = .ready ∨ l'.last = .pending f.cx f.woken)) := by
  unfold tickStep at h
  cases hpc : f.pc with
  | fast pc =>
    simp only [hpc] at h
    obtain ⟨p, -, rfl⟩ := Option.map_eq_some_iff.mp h
    exact Or.inl ⟨_, rfl, rfl⟩
  | masked =>
    simp only [hpc] at h
    obtain ⟨p, -, rfl⟩ := Option.map_eq_some_iff.mp h
    exact Or.inl ⟨_, rfl, rfl⟩
  | done status =>
    simp only [hpc, Option.some.injEq] at h
    subst h
    cases hpoll : SerialRx.poll status with
    | ready byte => exact Or.inr ⟨rfl, Or.inl rfl⟩
    | pending => exact Or.inr ⟨rfl, Or.inr rfl⟩

theorem CalledBy.tick {t : T} {l l' : SerialReader T} (h : l.CalledBy t)
    (hs : l.step .tick = some l') :
    l'.CalledBy t ∧ (source.woken l' = true → source.woken l = true) := by
  obtain ⟨f, hf, htick⟩ := Option.bind_eq_some_iff.mp hs
  have hcx := h.call f hf
  rcases tickStep_kept htick with ⟨pc, hcall, hlast⟩ | ⟨hcall, hlast⟩
  · refine ⟨⟨h.awake.next hs, fun g hg => ?_, hlast ▸ h.last⟩, fun hw => ?_⟩
    · rw [hcall] at hg
      obtain rfl := Option.some.inj hg
      exact hcx
    · simpa [source, hcall, hf] using hw
  · refine ⟨⟨h.awake.next hs, by simp [hcall], fun w woken hw => ?_⟩, fun hw => ?_⟩
    · rcases hlast with hlast | hlast
      · rw [hlast] at hw
        cases hw
      · rw [hlast] at hw
        exact (LastPoll.pending.inj hw).1 ▸ hcx
    · rcases hlast with hlast | hlast
      · simp [source, hcall, hlast, LastPoll.isWoken] at hw
      · simpa [source, hcall, hlast, hf, LastPoll.isWoken] using hw

theorem CalledBy.isr {t : T} {l l' : SerialReader T} {bytes : List UInt8} {w : Option T}
    (h : l.CalledBy t) (hs : source.isr l bytes = some (l', w)) :
    l'.CalledBy t ∧ source.calling l' = source.calling l ∧ source.pending l' = source.pending l ∧
      (source.woken l = true → source.woken l' = true) ∧
      (source.woken l' = true → source.woken l = true ∨ w = some t) := by
  obtain ⟨⟨rx, w⟩, hrx, hs⟩ := Option.map_eq_some_iff.mp hs
  obtain ⟨rfl, rfl⟩ := Prod.mk.inj hs
  have hawake : Awake (wakeAll { l with rx } w) :=
    h.awake.next (show step l (.isr bytes) = _ by simp only [step, hrx, Option.map_some])
  cases w with
  | none => exact ⟨⟨hawake, h.call, h.last⟩, rfl, rfl, id, Or.inl⟩
  | some v =>
    obtain ⟨hlast, hwoken⟩ := LastPoll.wake_of_waker v h.last
    refine ⟨⟨hawake, fun g hg => ?_, hlast⟩, ?_, LastPoll.isPending_wake v l.last, ?_⟩
    · obtain ⟨f, hf, rfl⟩ := Option.map_eq_some_iff.mp hg
      exact h.call f hf
    · exact Option.isSome_map
    · cases hcall : l.call with
      | some f =>
        have hcx := h.call f hcall
        simp only [source, wakeAll, hcall, Option.map_some, Bool.or_eq_true, decide_eq_true_eq,
          hcx, Option.some.injEq]
        exact ⟨Or.inl, fun hw => hw.imp_right Eq.symm⟩
      | none =>
        simp only [source, wakeAll, hcall, Option.map_none]
        exact ⟨LastPoll.isWoken_wake v, hwoken⟩

theorem lawful (t : T) : (source (T := T)).Lawful t (CalledBy t) where
  init := ⟨awake_of_reach (.refl _), by simp [source, SerialReader.init],
    by simp [source, SerialReader.init]⟩
  idle := rfl
  call {l l'} h hcalling hs := by
    have hnone : l.call = none := by simpa [source] using hcalling
    have hs : l.step (.call t) = some l' := hs
    have hl : l' = { l with call := some ⟨t, false, .fast .loadTail⟩ } := by
      simpa [step, hnone] using hs.symm
    refine ⟨⟨h.awake.next hs, ?_, ?_⟩, ?_⟩
    · simp [hl]
    · rw [hl]
      exact h.last
    · simp [source, hl]
  tick {l l' b} h hs := by
    obtain ⟨l'', hstep, hl⟩ := Option.map_eq_some_iff.mp hs
    exact h.tick ((Prod.mk.inj hl).1 ▸ hstep)
  isr h hs := h.isr hs

theorem rests (t : T) : (source (T := T)).Rests (CalledBy t) (Asleep t) := by
  intro l h hcalling hpending hwoken
  have hnone : l.call = none := by simpa [source] using hcalling
  cases hl : l.last with
  | pending w woken =>
    obtain rfl := h.last w woken hl
    have hfalse : woken = false := by simpa [source, hnone, hl, LastPoll.isWoken] using hwoken
    rw [hfalse] at hl
    exact ⟨hnone, hl, h.awake.asleep hnone w hl⟩
  | unpolled => simp [source, hl, LastPoll.isPending] at hpending
  | ready => simp [source, hl, LastPoll.isPending] at hpending

/-- **No byte waits for a task that waits for one.** On the hart, let `t` be
spawned once and its future poll the serial port. In the idle loop with
interrupts enabled, where the last poll of the future returned `Pending`
because that of the port did, the ring is empty and the next interrupt wakes
`t`. And from any state where it waits like that while bytes lie in the ring,
every run to the idle loop with interrupts enabled begins a poll of it. -/
theorem no_byte_waits {t : T} {c : Awaiting (SerialReader T) N T V}
    (h : Reach (Awaiting.step source t) (Awaiting.init source) c) (hasked : c.asked = true) :
    (c.kernel.Idle → c.kernel.shared.mie = true → c.source.Asleep t) ∧
    (¬c.kernel.Inside t → c.source.rx.ring.contents ≠ [] → ∀ es c',
      exec (Awaiting.step source t) c es = some c' → c'.kernel.Idle →
      c'.kernel.shared.mie = true →
      Meets (Awaiting.step source t) (Awaiting.Polled t) c es) :=
  ⟨fun hidle hmie => Awaiting.at_rest (lawful t) (rests t) h hidle hmie hasked,
    fun hout hne _ _ he hidle hmie => Awaiting.heard (lawful t) (rests t) h hasked hout
      (fun ha => hne ha.registered.1) he hidle hmie⟩

/-- A byte comes while the task waits, which takes it and waits for another. -/
theorem no_byte_waits_one :
    ∃ (c c' : Awaiting (SerialReader Unit) 1 Unit Unit)
      (es : List (AwaitEvent (List UInt8) Unit Unit)),
      c.source.rx.ring.contents = [7] ∧ exec (Awaiting.step source ()) c es = some c' ∧
        Meets (Awaiting.step source ()) (Awaiting.Polled ()) c es ∧ c'.source.Asleep () := by
  let before : List (AwaitEvent (List UInt8) Unit Unit) :=
    AwaitEvent.spawnTask () ++ AwaitEvent.enter ++ .call :: .replicate 4 .tick ++
      AwaitEvent.leave ++ [.kernel .trapIsr, .isr [7]]
  let es : List (AwaitEvent (List UInt8) Unit Unit) :=
    AwaitEvent.hart (.replicate 5 .tick ++ [.ret]) ++ AwaitEvent.enter ++
      .call :: .replicate 5 .tick ++ .call :: .replicate 4 .tick ++ AwaitEvent.leave
  obtain ⟨c, hc, hobs⟩ := Option.map_eq_some_iff.mp
    (show (exec (Awaiting.step source ()) (Awaiting.init source) before).map
      (fun c : Awaiting (SerialReader Unit) 1 Unit Unit =>
        (c.kernel.frames, c.asked, c.source.rx.ring.contents)) =
      some ([.isr (some (.wake ())), .base none], true, [7]) by decide +kernel)
  obtain ⟨c', hc', hobs'⟩ := Option.map_eq_some_iff.mp
    (show (exec (Awaiting.step source ()) (Awaiting.init source) (before ++ es)).map
      (fun c : Awaiting (SerialReader Unit) 1 Unit Unit =>
        (c.kernel.frames, c.asked, c.kernel.shared.mie, c.kernel.shared.msip)) =
      some ([.base none], true, true, false) by decide +kernel)
  simp only [Prod.mk.injEq] at hobs hobs'
  have hreach := Transition.reach_of_exec _ hc
  have hreach' := Transition.reach_of_exec _ hc'
  rw [Transition.exec_append, hc, Option.bind_some] at hc'
  have hidle : c'.kernel.Idle := ⟨hobs'.1, by simp [hobs'.2.2.2]⟩
  exact ⟨c, c', es, hobs.2.2, hc',
    (no_byte_waits hreach hobs.2.1).2 (Kernel.not_inside_of_handler hobs.1)
      (by simp [hobs.2.2]) es c' hc' hidle hobs'.2.2.1,
    (no_byte_waits hreach' hobs'.2.1).1 hidle hobs'.2.2.1⟩

end SerialReader

/-! ### The interrupt latch -/

namespace Latch

/-- `IrqLatch::poll` and `IrqLatch::notify` as the hart sees them. -/
def source : Source (Latch T) Unit T where
  init := init
  call l w := l.step (.poll w)
  tick l := (l.step .tick).map fun l' => (l', l.polls.any fun f => f.pc = .masked)
  isr l _ := l.latch.notify.map fun (latch, woken) =>
    (wakeAll { l with
      latch, notified := l.notified + 1, unconsumed := l.notified :: l.unconsumed } woken, woken)
  calling l := !l.polls.isEmpty
  pending l := l.last.isPending
  woken l := match l.polls with
    | f :: _ => f.woken
    | [] => l.last.isWoken

/-- The polls are those of `t`, one after another. -/
structure PolledBy (t : T) (l : Latch T) : Prop where
  sound : l.Sound
  awaits : l.Awaits
  polls : ∀ f ∈ l.polls, f.cx = t
  last : ∀ w woken, l.last = .pending w woken → w = t

/-- The last poll returned `Pending`, every notification has been consumed, and
the next one wakes `t`. -/
structure Asleep (t : T) (l : Latch T) : Prop where
  polls : l.polls = []
  last : l.last = .pending t false
  unconsumed : l.unconsumed = []
  registered : l.Registered t

/-- A poll goes on with its waker, or returns. -/
theorem tick_kept {l l' : Latch T} (h : l.Awaits) (hn : Next l .tick l') :
    ∃ f, l.polls = [f] ∧
      ((∃ g, l'.polls = [g] ∧ g.cx = f.cx ∧ g.woken = f.woken ∧ l'.last = l.last) ∨
        (l'.polls = [] ∧ (l'.last = .ready ∨ l'.last = .pending f.cx f.woken))) := by
  cases hn with
  | take hp _ _ _ =>
    obtain rfl := h.below hp
    exact ⟨_, hp, Or.inl ⟨_, rfl, rfl, rfl, rfl⟩⟩
  | miss hp _ =>
    obtain rfl := h.below hp
    exact ⟨_, hp, Or.inl ⟨_, rfl, rfl, rfl, rfl⟩⟩
  | register hp _ _ _ =>
    obtain rfl := h.below hp
    exact ⟨_, hp, Or.inl ⟨_, rfl, rfl, rfl, rfl⟩⟩
  | ready hp _ =>
    obtain rfl := h.below hp
    exact ⟨_, hp, Or.inr ⟨rfl, Or.inl rfl⟩⟩
  | pending hp _ =>
    obtain rfl := h.below hp
    exact ⟨_, hp, Or.inr ⟨rfl, Or.inr rfl⟩⟩

theorem PolledBy.tick {t : T} {l l' : Latch T} (h : l.PolledBy t) (hs : l.step .tick = some l') :
    l'.PolledBy t ∧ (source.woken l' = true → source.woken l = true) := by
  have hn := step_next hs
  have hsound := h.sound.next hn
  have hawaits := h.awaits.next h.sound (show l.Single .tick from trivial) hn
  obtain ⟨f, hf, hnext⟩ := tick_kept h.awaits hn
  have hcx : f.cx = t := h.polls f (by simp [hf])
  rcases hnext with ⟨g, hg, hgcx, hgw, hlast⟩ | ⟨hnil, hlast⟩
  · refine ⟨⟨hsound, hawaits, fun g' hg' => ?_, hlast ▸ h.last⟩, fun hw => ?_⟩
    · rw [hg] at hg'
      obtain rfl := List.mem_singleton.mp hg'
      exact hgcx.trans hcx
    · simpa [source, hg, hf, hgw] using hw
  · refine ⟨⟨hsound, hawaits, by simp [hnil], fun w woken hw => ?_⟩, fun hw => ?_⟩
    · rcases hlast with hlast | hlast
      · rw [hlast] at hw
        cases hw
      · rw [hlast] at hw
        exact (LastPoll.pending.inj hw).1 ▸ hcx
    · rcases hlast with hlast | hlast
      · simp [source, hnil, hlast, LastPoll.isWoken] at hw
      · simpa [source, hnil, hlast, hf, LastPoll.isWoken] using hw

theorem PolledBy.isr {t : T} {l l' : Latch T} {w : Option T} (h : l.PolledBy t)
    (hs : source.isr l () = some (l', w)) :
    l'.PolledBy t ∧ source.calling l' = source.calling l ∧ source.pending l' = source.pending l ∧
      (source.woken l = true → source.woken l' = true) ∧
      (source.woken l' = true → source.woken l = true ∨ w = some t) := by
  obtain ⟨⟨latch, w⟩, hnotify, hs⟩ := Option.map_eq_some_iff.mp hs
  obtain ⟨rfl, rfl⟩ := Prod.mk.inj hs
  set l₀ : Latch T := { l with
    latch, notified := l.notified + 1, unconsumed := l.notified :: l.unconsumed } with hl₀
  have hstep : step l .notify = some (wakeAll l₀ w) := by
    simp only [step, hnotify, Option.map_some, hl₀]
  have hn := step_next hstep
  have hsound := h.sound.next hn
  have hawaits := h.awaits.next h.sound (show l.Single .notify from trivial) hn
  cases w with
  | none => exact ⟨⟨hsound, hawaits, h.polls, h.last⟩, rfl, rfl, id, Or.inl⟩
  | some v =>
    obtain ⟨hlast, hwoken⟩ := LastPoll.wake_of_waker v h.last
    refine ⟨⟨hsound, hawaits, fun g hg => ?_, hlast⟩, ?_, LastPoll.isPending_wake v l.last, ?_⟩
    · obtain ⟨f, hf, hcx, -⟩ := of_mem_wakeAll hg
      exact hcx.trans (h.polls f hf)
    · cases hp : l.polls with
      | nil => simp [source, wakeAll, hl₀, hp]
      | cons f fs => simp [source, wakeAll, hl₀, hp]
    · cases hp : l.polls with
      | cons f fs =>
        have hcx := h.polls f (by simp [hp])
        simp only [source, wakeAll, hl₀, hp, List.map_cons, LatchPoll.wake, Bool.or_eq_true,
          decide_eq_true_eq, hcx, Option.some.injEq]
        exact ⟨Or.inl, fun hw => hw.imp_right Eq.symm⟩
      | nil =>
        simp only [source, wakeAll, hl₀, hp, List.map_nil]
        exact ⟨LastPoll.isWoken_wake v, hwoken⟩

theorem lawful (t : T) : (source (T := T)).Lawful t (PolledBy t) where
  init := ⟨sound_of_reach (.refl _), ⟨by simp [source, Latch.init], by simp [source, Latch.init],
    by simp [source, Latch.init]⟩, by simp [source, Latch.init], by simp [source, Latch.init]⟩
  idle := rfl
  call {l l'} h hcalling hs := by
    have hnil : l.polls = [] := by simpa [source] using hcalling
    have hs : l.step (.poll t) = some l' := hs
    have hn := step_next hs
    have hsound := h.sound.next hn
    have hawaits := h.awaits.next h.sound (show l.Single (.poll t) from hnil) hn
    have hl : l' = { l with polls := ⟨t, false, .fast, []⟩ :: l.polls } :=
      (Option.some.inj hs).symm
    refine ⟨⟨hsound, hawaits, ?_, ?_⟩, ?_⟩
    · simp [hl, hnil]
    · rw [hl]
      exact h.last
    · simp [source, hl]
  tick {l l' b} h hs := by
    obtain ⟨l'', hstep, hl⟩ := Option.map_eq_some_iff.mp hs
    exact h.tick ((Prod.mk.inj hl).1 ▸ hstep)
  isr h hs := h.isr hs

theorem rests (t : T) : (source (T := T)).Rests (PolledBy t) (Asleep t) := by
  intro l h hcalling hpending hwoken
  have hnil : l.polls = [] := by simpa [source] using hcalling
  cases hl : l.last with
  | pending w woken =>
    obtain rfl := h.last w woken hl
    have hfalse : woken = false := by simpa [source, hnil, hl, LastPoll.isWoken] using hwoken
    rw [hfalse] at hl
    have hreg := h.awaits.asleep hnil w hl
    refine ⟨hnil, hl, ?_, hreg⟩
    by_contra hne
    exact absurd (h.sound.pending.mpr hne) (by simp [hreg.1])
  | unpolled => simp [source, hl, LastPoll.isPending] at hpending
  | ready => simp [source, hl, LastPoll.isPending] at hpending

/-- **No interrupt waits for a task that waits for one.** On the hart, let `t`
be spawned once and be the one whose future polls the latch. In the idle loop
with interrupts enabled, where the last poll of the future returned `Pending`
because that of the latch did, every notification has been consumed and the
next one wakes `t`. And from any state where it waits like that while one has
not been consumed, every run to the idle loop with interrupts enabled begins a
poll of it. -/
theorem no_interrupt_waits {t : T} {c : Awaiting (Latch T) N T V}
    (h : Reach (Awaiting.step source t) (Awaiting.init source) c) (hasked : c.asked = true) :
    (c.kernel.Idle → c.kernel.shared.mie = true → c.source.Asleep t) ∧
    (¬c.kernel.Inside t → c.source.unconsumed ≠ [] → ∀ es c',
      exec (Awaiting.step source t) c es = some c' → c'.kernel.Idle →
      c'.kernel.shared.mie = true →
      Meets (Awaiting.step source t) (Awaiting.Polled t) c es) :=
  ⟨fun hidle hmie => Awaiting.at_rest (lawful t) (rests t) h hidle hmie hasked,
    fun hout hne _ _ he hidle hmie => Awaiting.heard (lawful t) (rests t) h hasked hout
      (fun ha => hne ha.unconsumed) he hidle hmie⟩

/-- An interrupt comes while the task waits, which takes it and waits for
another. -/
theorem no_interrupt_waits_one :
    ∃ (c c' : Awaiting (Latch Unit) 1 Unit Unit) (es : List (AwaitEvent Unit Unit Unit)),
      c.source.unconsumed = [0] ∧ exec (Awaiting.step source ()) c es = some c' ∧
        Meets (Awaiting.step source ()) (Awaiting.Polled ()) c es ∧ c'.source.Asleep () := by
  let before : List (AwaitEvent Unit Unit Unit) :=
    AwaitEvent.spawnTask () ++ AwaitEvent.enter ++ .call :: .replicate 3 .tick ++
      AwaitEvent.leave ++ [.kernel .trapIsr, .isr ()]
  let es : List (AwaitEvent Unit Unit Unit) :=
    AwaitEvent.hart (.replicate 5 .tick ++ [.ret]) ++ AwaitEvent.enter ++
      .call :: .replicate 2 .tick ++ .call :: .replicate 3 .tick ++ AwaitEvent.leave
  obtain ⟨c, hc, hobs⟩ := Option.map_eq_some_iff.mp
    (show (exec (Awaiting.step source ()) (Awaiting.init source) before).map
      (fun c : Awaiting (Latch Unit) 1 Unit Unit =>
        (c.kernel.frames, c.asked, c.source.unconsumed)) =
      some ([.isr (some (.wake ())), .base none], true, [0]) by decide +kernel)
  obtain ⟨c', hc', hobs'⟩ := Option.map_eq_some_iff.mp
    (show (exec (Awaiting.step source ()) (Awaiting.init source) (before ++ es)).map
      (fun c : Awaiting (Latch Unit) 1 Unit Unit =>
        (c.kernel.frames, c.asked, c.kernel.shared.mie, c.kernel.shared.msip)) =
      some ([.base none], true, true, false) by decide +kernel)
  simp only [Prod.mk.injEq] at hobs hobs'
  have hreach := Transition.reach_of_exec _ hc
  have hreach' := Transition.reach_of_exec _ hc'
  rw [Transition.exec_append, hc, Option.bind_some] at hc'
  have hidle : c'.kernel.Idle := ⟨hobs'.1, by simp [hobs'.2.2.2]⟩
  exact ⟨c, c', es, hobs.2.2, hc',
    (no_interrupt_waits hreach hobs.2.1).2 (Kernel.not_inside_of_handler hobs.1)
      (by simp [hobs.2.2]) es c' hc' hidle hobs'.2.2.1,
    (no_interrupt_waits hreach' hobs'.2.1).1 hidle hobs'.2.2.1⟩

end Latch

end RtAsync

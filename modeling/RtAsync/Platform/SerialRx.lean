/-
# The serial reader

`platform/src/drivers/serial_ns16550a.rs` and `futures/src/serial.rs`: a task
that awaits a byte calls `rx_register_waker`, and the interrupt handler fills
the ring and wakes it. The accesses of the fast path are one step each, and
what is done with interrupts disabled is one step; the interrupt comes between
any two of them and drains any number of bytes.

Key definitions: `RxState.rxHandler`, `RxState.registerMasked`,
`SerialReader.step`, `SerialReader.Awake`.
Key theorems: `RxState.registerMasked_spec`, `SerialReader.Awake.tick`,
`SerialReader.Awake.isr`, `SerialReader.never_asleep`.
-/
import RtAsync.Futures.Poll
import RtAsync.Platform.RxRing
import RtAsync.Platform.WakerSlot

namespace RtAsync

open Transition (Reach exec)

variable {W : Type}

/-! ### The source -/

/-- `SerialRxStatus`. -/
inductive SerialRxStatus
  | ready (byte : UInt8)
  | pending
  | unsupported
  deriving DecidableEq

/-- `SerialRx::poll`, of what `rx_register_waker` returned. -/
def SerialRx.poll : SerialRxStatus → Poll UInt8
  | .ready b => .ready b
  | .pending => .pending
  | .unsupported => .pending

/-- `RX`: the ring and the waker slot. -/
structure RxState (W : Type) where
  ring : RxRing
  slot : WakerSlot W
  deriving DecidableEq

/-- The loop of `rx_handler`. -/
def RxRing.rxPushAll (self : RxRing) : List UInt8 → Option RxRing
  | [] => some self
  | byte :: bytes => (self.rxPush byte).bind fun (ring, _) => ring.rxPushAll bytes

namespace RxState

def new : RxState W := ⟨.new, .new⟩

/-- `rx_handler`, when the UART holds `bytes`, and the waker it wakes. -/
def rxHandler (self : RxState W) (bytes : List UInt8) : Option (RxState W × Option W) :=
  (self.ring.rxPushAll bytes).bind fun ring =>
    self.slot.wake.map fun (slot, woken) => (⟨ring, slot⟩, woken)

/-- `rx_register_waker` from `disable_interrupts` to `enable_interrupts`. -/
def registerMasked (self : RxState W) (cx : W) : Option (RxState W × SerialRxStatus) :=
  (self.slot.register cx).bind fun slot => self.ring.rxPop.bind fun (ring, result) =>
    match result with
    | some byte => slot.unregister.map fun slot => (⟨ring, slot⟩, .ready byte)
    | none => some (⟨ring, slot⟩, .pending)

end RxState

/-! ### A reader and the interrupt -/

/-- The next access of `rx_register_waker`. -/
inductive RegisterPc
  /-- An access of `rx_pop` in the fast path. -/
  | fast (pc : RxPopPc)
  /-- What it does with interrupts disabled. -/
  | masked
  | done (status : SerialRxStatus)
  deriving DecidableEq

/-- A call of `rx_register_waker` in progress, with waker `cx`, and whether `cx`
has been woken since it began. -/
structure RegisterCall (W : Type) where
  cx : W
  woken : Bool
  pc : RegisterPc
  deriving DecidableEq

/-- `RX`, the call of `rx_register_waker` in progress, and how the last one that
returned ended. -/
structure SerialReader (W : Type) where
  rx : RxState W
  call : Option (RegisterCall W)
  last : LastPoll W

/-- `tick` is the next access of the call, `isr` a `rx_handler`. -/
inductive SerialEvent (W : Type)
  | call (w : W)
  | tick
  | isr (bytes : List UInt8)

namespace SerialReader

def init : SerialReader W := ⟨.new, none, .unpolled⟩

/-- The next access of the call `f`. -/
def tickStep (l : SerialReader W) (f : RegisterCall W) : Option (SerialReader W) :=
  match f.pc with
  | .fast pc => (l.rx.ring.rxPopStep pc).map fun (ring, next) =>
    { l with
      rx := { l.rx with ring }
      call := some { f with pc := match next with
        | .inl pc => .fast pc
        | .inr none => .masked
        | .inr (some byte) => .done (.ready byte) } }
  | .masked => (l.rx.registerMasked f.cx).map fun (rx, status) =>
    { l with rx, call := some { f with pc := .done status } }
  | .done status => some { l with
    call := none
    last := match SerialRx.poll status with
      | .ready _ => .ready
      | .pending => .pending f.cx f.woken }

variable [DecidableEq W]

/-- The wake of `woken`, if there is one. -/
def wakeAll (l : SerialReader W) (woken : Option W) : SerialReader W :=
  match woken with
  | none => l
  | some w => { l with
    call := l.call.map fun f => { f with woken := f.woken || f.cx = w }
    last := l.last.wake w }

/-- There is one task, so one call at a time. -/
def step (l : SerialReader W) : SerialEvent W → Option (SerialReader W)
  | .call w => match l.call with
    | some _ => none
    | none => some { l with call := some ⟨w, false, .fast .loadTail⟩ }
  | .tick => l.call.bind l.tickStep
  | .isr bytes => (l.rx.rxHandler bytes).map fun (rx, woken) => wakeAll { l with rx } woken

end SerialReader

/-! ### What the accesses do -/

theorem RxRing.WF.rxPushAll : ∀ (bytes : List UInt8) {ring : RxRing}, ring.WF →
    ∃ ring', ring.rxPushAll bytes = some ring' ∧ ring'.WF ∧
      ring'.contents = (ring.contents ++ bytes).take 255 ∧ ∀ pc, ring.PopOk pc → ring'.PopOk pc
  | [], ring, h => by
    refine ⟨ring, rfl, h, ?_, fun _ hpc => hpc⟩
    rw [List.append_nil, List.take_of_length_le h.length_contents_le]
  | byte :: bytes, ring, h => by
    by_cases hfull : ring.contents.length = 255
    · obtain ⟨ring', hpush, hwf, hstored, hpop⟩ := h.rxPushAll bytes
      refine ⟨ring', ?_, hwf, ?_, hpop⟩
      · simp only [RxRing.rxPushAll, h.rxPush_full hfull, Option.bind_some, hpush]
      · rw [hstored, List.take_left' hfull, List.take_left' hfull]
    · obtain ⟨ring₁, hpush₁, hwf₁, htail, hc⟩ := h.rxPush_room hfull byte
      obtain ⟨ring', hpush, hwf, hstored, hpop⟩ := hwf₁.rxPushAll bytes
      refine ⟨ring', ?_, hwf, ?_, fun pc hpc => hpop pc (hpc.push htail hc)⟩
      · simp only [RxRing.rxPushAll, hpush₁, Option.bind_some, hpush]
      · rw [hstored, hc, List.append_assoc, List.singleton_append]

namespace RxState

/-- Nothing is stored, and the next interrupt wakes `w`. -/
def Registered (rx : RxState W) (w : W) : Prop :=
  rx.ring.contents = [] ∧ ∃ n, rx.slot.waker = some (n, w)

theorem registerMasked_spec {rx : RxState W} (hslot : rx.slot.Ok) (hring : rx.ring.WF) (cx : W) :
    ∃ rx' status, rx.registerMasked cx = some (rx', status) ∧ rx'.slot.Ok ∧ rx'.ring.WF ∧
      (SerialRx.poll status = .pending → rx'.Registered cx) := by
  obtain ⟨slot, n, hreg, hw, hok⟩ := hslot.register cx
  obtain ⟨ring, result, hpop, hwf, hc, hnone⟩ := hring.rxPop
  unfold registerMasked
  rw [hreg, Option.bind_some, hpop, Option.bind_some]
  cases result with
  | some byte =>
    obtain ⟨slot', hunreg, -, hok'⟩ := hok.unregister (by rw [hw]; rfl)
    refine ⟨⟨ring, slot'⟩, .ready byte, by rw [hunreg]; rfl, hok', hwf, fun h => ?_⟩
    cases h
  | none =>
    refine ⟨⟨ring, slot⟩, .pending, rfl, hok, hwf, fun _ => ⟨?_, n, hw⟩⟩
    have hnil := hnone rfl
    rw [hc] at hnil
    exact hnil

/-- The interrupt stores what there is room for, and wakes whoever is
registered. -/
theorem rxHandler_spec {rx : RxState W} (hslot : rx.slot.Ok) (hring : rx.ring.WF)
    (bytes : List UInt8) :
    ∃ rx', rx.rxHandler bytes = some (rx', rx.slot.waker.map Prod.snd) ∧ rx'.slot.Ok ∧
      rx'.ring.WF ∧ (∀ pc, rx.ring.PopOk pc → rx'.ring.PopOk pc) ∧
      rx'.ring.contents = (rx.ring.contents ++ bytes).take 255 ∧ rx'.slot.waker = none ∧
      rx'.slot.woken = rx.slot.waker.toList.map Prod.fst ++ rx.slot.woken := by
  obtain ⟨ring, hpush, hwf, hstored, hpop⟩ := hring.rxPushAll bytes
  obtain ⟨slot, hwake, hnone, hwoken, hok⟩ := hslot.wake
  refine ⟨⟨ring, slot⟩, ?_, hok, hwf, hpop, hstored, hnone, hwoken⟩
  rw [rxHandler, hpush, Option.bind_some, hwake]
  rfl

end RxState

namespace SerialReader

/-- The slot and the ring are sound, and a call that returned `Pending`, or is
going to, and whose waker has not been woken since it began, has it
registered. -/
structure Awake (l : SerialReader W) : Prop where
  slot : l.rx.slot.Ok
  ring : l.rx.ring.WF
  fast : ∀ f ∈ l.call, ∀ pc, f.pc = .fast pc → l.rx.ring.PopOk pc
  asleep : l.call = none → ∀ w, l.last = .pending w false → l.rx.Registered w
  returning : ∀ f ∈ l.call, ∀ status, f.pc = .done status → SerialRx.poll status = .pending →
    f.woken = false → l.rx.Registered f.cx

theorem Awake.tickStep {l : SerialReader W} {f : RegisterCall W} (h : l.Awake)
    (hf : l.call = some f) : ∃ l', l.tickStep f = some l' ∧ l'.Awake := by
  cases hpc : f.pc with
  | fast pc =>
    rcases (h.fast f hf pc hpc).step h.ring with ⟨pc', hs, hpop⟩ | ⟨ring', result, hs, hwf, -, -⟩
    · refine ⟨{ l with call := some { f with pc := .fast pc' } }, ?_, h.slot, h.ring, ?_,
        by simp, ?_⟩
      · simp only [SerialReader.tickStep, hpc, hs, Option.map_some]
      · rintro g ⟨⟩ pc'' ⟨⟩
        exact hpop
      · rintro g ⟨⟩ status ⟨⟩
    · cases result with
      | none =>
        refine ⟨{ l with rx := { l.rx with ring := ring' }, call := some { f with pc := .masked } },
          ?_, h.slot, hwf, ?_, by simp, ?_⟩
        · simp only [SerialReader.tickStep, hpc, hs, Option.map_some]
        · rintro g ⟨⟩ pc'' ⟨⟩
        · rintro g ⟨⟩ status ⟨⟩
      | some byte =>
        refine ⟨{ l with rx := { l.rx with ring := ring' }
                         call := some { f with pc := .done (.ready byte) } },
          ?_, h.slot, hwf, ?_, by simp, ?_⟩
        · simp only [SerialReader.tickStep, hpc, hs, Option.map_some]
        · rintro g ⟨⟩ pc'' ⟨⟩
        · rintro g ⟨⟩ status ⟨⟩ ⟨⟩
  | masked =>
    obtain ⟨rx, status, hm, hslot, hring, hreg⟩ := RxState.registerMasked_spec h.slot h.ring f.cx
    refine ⟨{ l with rx, call := some { f with pc := .done status } }, ?_, hslot, hring, ?_,
      by simp, ?_⟩
    · simp only [SerialReader.tickStep, hpc, hm, Option.map_some]
    · rintro g ⟨⟩ pc ⟨⟩
    · rintro g ⟨⟩ status' ⟨⟩ hpend -
      exact hreg hpend
  | done status =>
    cases hpoll : SerialRx.poll status with
    | ready byte =>
      refine ⟨{ l with call := none, last := .ready }, ?_, h.slot, h.ring, by simp, by simp,
        by simp⟩
      simp only [SerialReader.tickStep, hpc, hpoll]
    | pending =>
      refine ⟨{ l with call := none, last := .pending f.cx f.woken }, ?_, h.slot, h.ring, by simp,
        fun _ w hlast => ?_, by simp⟩
      · simp only [SerialReader.tickStep, hpc, hpoll]
      · obtain ⟨rfl, hwoken⟩ := LastPoll.pending.inj hlast
        exact h.returning f hf status hpc hpoll hwoken

variable [DecidableEq W]

theorem Awake.tick {l : SerialReader W} (h : l.Awake) (hcall : l.call.isSome) :
    ∃ l', step l .tick = some l' ∧ l'.Awake := by
  obtain ⟨f, hf⟩ := Option.isSome_iff_exists.mp hcall
  obtain ⟨l', hs, hawake⟩ := h.tickStep hf
  exact ⟨l', by simp only [step, hf, Option.bind_some, hs], hawake⟩

theorem Awake.isr {l : SerialReader W} (h : l.Awake) (bytes : List UInt8) :
    ∃ l', step l (.isr bytes) = some l' ∧ l'.Awake := by
  obtain ⟨rx, hrx, hslot, hring, hpop, -⟩ := RxState.rxHandler_spec h.slot h.ring bytes
  have hreg : ∀ w, l.rx.Registered w → l.rx.slot.waker.map Prod.snd = some w := by
    rintro w ⟨-, n, hn⟩
    rw [hn]
    rfl
  refine ⟨_, by simp only [step, hrx, Option.map_some]; rfl, ?_⟩
  cases hw : l.rx.slot.waker.map Prod.snd with
  | none =>
    -- nobody is registered
    refine ⟨hslot, hring, fun f hf pc hpc => hpop pc (h.fast f hf pc hpc), fun hnone w hlast => ?_,
      fun f hf status hpc hpend hwoken => ?_⟩
    · have := hreg w (h.asleep hnone w hlast)
      rw [hw] at this
      cases this
    · have := hreg f.cx (h.returning f hf status hpc hpend hwoken)
      rw [hw] at this
      cases this
  | some v =>
    refine ⟨hslot, hring, fun f hf pc hpc => ?_, fun hnone w hlast => ?_,
      fun f hf status hpc hpend hwoken => ?_⟩
    · obtain ⟨g, hg, rfl⟩ := Option.map_eq_some_iff.mp hf
      exact hpop pc (h.fast g hg pc hpc)
    · have hnone' : l.call = none := Option.map_eq_none_iff.mp hnone
      obtain ⟨hlast', hne⟩ := LastPoll.of_wake_eq_pending (l := l.last) hlast
      have := hreg w (h.asleep hnone' w hlast')
      rw [hw] at this
      exact absurd (Option.some.inj this) hne
    · obtain ⟨g, hg, rfl⟩ := Option.map_eq_some_iff.mp hf
      simp only [Bool.or_eq_false_iff, decide_eq_false_iff_not] at hwoken
      have := hreg g.cx (h.returning g hg status hpc hpend hwoken.1)
      rw [hw] at this
      exact absurd (Option.some.inj this).symm hwoken.2

theorem Awake.next {l l' : SerialReader W} {ev : SerialEvent W} (h : l.Awake)
    (hs : step l ev = some l') : l'.Awake := by
  cases ev with
  | call w =>
    cases hcall : l.call with
    | some f => simp [step, hcall] at hs
    | none =>
      simp only [step, hcall, Option.some.injEq] at hs
      rw [← hs]
      refine ⟨h.slot, h.ring, ?_, by simp, ?_⟩
      · rintro f ⟨⟩ pc ⟨⟩
        trivial
      · rintro f ⟨⟩ status ⟨⟩
  | tick =>
    have hcall : l.call.isSome := by
      cases hcall : l.call with
      | none => simp [step, hcall] at hs
      | some f => rfl
    obtain ⟨l'', hs'', hawake⟩ := h.tick hcall
    rw [Option.some.inj (hs.symm.trans hs'')]
    exact hawake
  | isr bytes =>
    obtain ⟨l'', hs'', hawake⟩ := h.isr bytes
    rw [Option.some.inj (hs.symm.trans hs'')]
    exact hawake

theorem awake_of_reach {l : SerialReader W} (h : Reach step init l) : l.Awake :=
  h.invariant (fun _ _ _ ha hs => ha.next hs)
    ⟨.new, .new, by simp [init], by simp [init], by simp [init]⟩

/-- What an interrupt does: it stores the bytes that there is room for, behind
those that are stored, and wakes the waker that is registered. -/
theorem Awake.isr_stores {l : SerialReader W} (h : l.Awake) (bytes : List UInt8) :
    ∃ l', step l (.isr bytes) = some l' ∧
      l'.rx.ring.contents = (l.rx.ring.contents ++ bytes).take 255 ∧
      l'.rx.slot.waker = none ∧ ∀ n w, l.rx.slot.waker = some (n, w) →
        l'.rx.slot.woken = n :: l.rx.slot.woken ∧ (∀ f ∈ l'.call, f.cx = w → f.woken = true) ∧
          ∀ woken, l'.last = .pending w woken → woken = true := by
  obtain ⟨rx, hrx, -, -, -, hstored, hnone, hwoken⟩ :=
    RxState.rxHandler_spec h.slot h.ring bytes
  refine ⟨_, by simp only [step, hrx, Option.map_some]; rfl, ?_⟩
  cases hw : l.rx.slot.waker with
  | none => exact ⟨hstored, hnone, by simp⟩
  | some nw =>
    obtain ⟨n, w⟩ := nw
    refine ⟨hstored, hnone, ?_⟩
    rintro n' w' ⟨⟩
    refine ⟨?_, fun f hf hcx => ?_, fun woken hlast => ?_⟩
    · show rx.slot.woken = _
      rw [hwoken, hw]
      rfl
    · obtain ⟨g, -, rfl⟩ := Option.map_eq_some_iff.mp hf
      simp [show g.cx = w from hcx]
    · cases woken with
      | true => rfl
      | false => exact absurd rfl (LastPoll.of_wake_eq_pending (l := l.last) hlast).2

/-- **A serial reader is never left asleep with data waiting**, and the waker
slot is sound, in every state of every run. When no call is in progress, the
last one returned `Pending` and its waker has not been woken since it began,
nothing is stored. Where interrupts are enabled the slot is initialised
exactly when `has_waker` is set, neither a call nor the handler reads or drops
a slot that is not, and each waker that was stored is there or was woken or
dropped, once. The handler stores what the UART holds, in order, as far as
there is room, and wakes the waker that is registered: the call in progress
with it and the last one that returned are woken. -/
theorem never_asleep {l : SerialReader W} (h : Reach step init l) :
    (l.call = none → ∀ w, l.last = .pending w false → l.rx.ring.contents = []) ∧
    (l.rx.slot.waker.isSome ↔ l.rx.slot.hasWaker = true) ∧
    ((∀ bytes, (step l (.isr bytes)).isSome) ∧ (l.call.isSome → (step l .tick).isSome)) ∧
    (l.rx.slot.waker.toList.map Prod.fst ++ (l.rx.slot.woken ++ l.rx.slot.dropped)).Perm
      (List.range l.rx.slot.stored) ∧
    ∀ bytes, ∃ l', step l (.isr bytes) = some l' ∧
      l'.rx.ring.contents = (l.rx.ring.contents ++ bytes).take 255 ∧
      l'.rx.slot.waker = none ∧ ∀ n w, l.rx.slot.waker = some (n, w) →
        l'.rx.slot.woken = n :: l.rx.slot.woken ∧ (∀ f ∈ l'.call, f.cx = w → f.woken = true) ∧
          ∀ woken, l'.last = .pending w woken → woken = true := by
  have ha := awake_of_reach h
  refine ⟨fun hnone w hlast => (ha.asleep hnone w hlast).1, by rw [ha.slot.init_iff],
    ⟨fun bytes => ?_, fun hcall => ?_⟩, ha.slot.accounted, ha.isr_stores⟩
  · obtain ⟨l', hs, -⟩ := ha.isr bytes
    rw [hs]
    rfl
  · obtain ⟨l', hs, -⟩ := ha.tick hcall
    rw [hs]
    rfl

/-- A reader waits, is woken by two bytes and takes one; the next call finds the
other. -/
theorem never_asleep_two : ∃ l : SerialReader (Fin 2), Reach step init l ∧
    l.call = none ∧ l.last = .pending 0 false ∧ l.rx.ring.contents = [] := by
  have hobs : ((exec step (init : SerialReader (Fin 2)) [.call 0, .tick, .tick, .tick, .tick,
      .isr [7, 9], .call 0, .tick, .tick, .tick, .tick, .tick, .call 0, .tick, .tick, .tick, .tick,
      .tick, .call 0, .tick, .tick, .tick, .tick]).map fun l => (l.call, l.last)) =
      some (none, .pending 0 false) := by decide +kernel
  obtain ⟨l, hexec, hobs⟩ := Option.map_eq_some_iff.mp hobs
  obtain ⟨hcall, hlast⟩ := Prod.mk.inj hobs
  have hreach : Reach step init l := Transition.reach_of_exec _ hexec
  exact ⟨l, hreach, hcall, hlast, (never_asleep hreach).1 hcall 0 hlast⟩

end SerialReader
end RtAsync

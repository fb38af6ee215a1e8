/-
# The receive ring of the UART

`platform/src/drivers/serial_ns16550a.rs`: `rx_push`, which the interrupt
handler calls with interrupts disabled, and `rx_pop`, which a task calls and
which makes one access at a time, the interrupt coming between any two. The
indices are 16 bits wide and masked; an index that is out of bounds is a panic
and has no result.

Key definitions: `RxRing.rxPush`, `RxRing.rxPopStep`, `RxRing.rxPop`,
`RxRun.step`.
Key theorems: `RxRing.WF.rxPush`, `RxRing.WF.release`, `RxRun.Fifo.next`,
`RxRun.Popping.run`, `RxRun.lossless_fifo`.
-/
import Mathlib.Data.List.ReduceOption
import RtAsync.Lib.RingBuf
import RtAsync.Lib.Transition

namespace RtAsync

open Transition (Reach exec)

/-! ### The source -/

abbrev rxBufSize : ℕ := 256

def rxBufMask : UInt16 := 255

/-- The ring of `RxState`. -/
structure RxRing where
  head : UInt16
  tail : UInt16
  buf : Vector UInt8 rxBufSize
  deriving DecidableEq

/-- The next access of `rx_pop`, with what it has loaded. -/
inductive RxPopPc
  | loadTail
  | loadHead (tail : UInt16)
  | read (tail : UInt16)
  | storeTail (tail : UInt16) (byte : UInt8)
  deriving DecidableEq

/-- The accesses that `rx_pop` has still to make, if there is a byte. -/
def RxPopPc.left : RxPopPc → ℕ
  | .loadTail => 4
  | .loadHead _ => 3
  | .read _ => 2
  | .storeTail .. => 1

namespace RxRing

def new : RxRing := ⟨0, 0, Vector.replicate rxBufSize 0⟩

/-- `rx_push`, and whether it took the byte. -/
def rxPush (self : RxRing) (byte : UInt8) : Option (RxRing × Bool) :=
  let next := (self.head + 1) &&& rxBufMask
  if next = self.tail then some (self, false)
  else if h : self.head.toNat < rxBufSize then
    some ({ self with buf := self.buf.set self.head.toNat byte, head := next }, true)
  else none

/-- The next access of `rx_pop`, and how it goes on or what it returns. -/
def rxPopStep (self : RxRing) : RxPopPc → Option (RxRing × (RxPopPc ⊕ Option UInt8))
  | .loadTail => some (self, .inl (.loadHead self.tail))
  | .loadHead tail =>
    if self.head = tail then some (self, .inr none) else some (self, .inl (.read tail))
  | .read tail =>
    if h : tail.toNat < rxBufSize then some (self, .inl (.storeTail tail self.buf[tail.toNat]))
    else none
  | .storeTail tail byte =>
    some ({ self with tail := (tail + 1) &&& rxBufMask }, .inr (some byte))

/-- `rx_pop` with interrupts disabled. -/
def rxPop (self : RxRing) : Option (RxRing × Option UInt8) :=
  if self.head = self.tail then some (self, none)
  else if h : self.tail.toNat < rxBufSize then
    some ({ self with tail := (self.tail + 1) &&& rxBufMask }, some self.buf[self.tail.toNat])
  else none

/-! ### The ring it stands for -/

/-- The indices are in bounds. -/
structure WF (r : RxRing) : Prop where
  head_lt : r.head.toNat < rxBufSize
  tail_lt : r.tail.toNat < rxBufSize

def toRing (r : RxRing) : RingBuf UInt8 rxBufSize :=
  ⟨r.buf, Fin.ofNat rxBufSize r.head.toNat, Fin.ofNat rxBufSize r.tail.toNat⟩

/-- The bytes that are stored, the oldest first. -/
def contents (r : RxRing) : List UInt8 := r.toRing.contents

theorem toNat_masked_succ (i : UInt16) : ((i + 1) &&& rxBufMask).toNat = (i.toNat + 1) % 256 := by
  have hmask : rxBufMask.toNat = 2 ^ 8 - 1 := rfl
  rw [UInt16.toNat_and, hmask, Nat.and_two_pow_sub_one_eq_mod, UInt16.toNat_add, UInt16.toNat_one]
  omega

/-- An index moves on as in the ring. -/
theorem ofNat_masked_succ (i : UInt16) :
    Fin.ofNat rxBufSize ((i + 1) &&& rxBufMask).toNat = Fin.ofNat rxBufSize i.toNat + 1 := by
  apply Fin.ext
  rw [RingBuf.val_add_one_mod, Fin.val_ofNat, Fin.val_ofNat, toNat_masked_succ]
  show (i.toNat + 1) % 256 % 256 = (i.toNat % 256 + 1) % 256
  omega

theorem masked_lt (i : UInt16) : ((i + 1) &&& rxBufMask).toNat < rxBufSize := by
  rw [toNat_masked_succ]
  exact Nat.mod_lt _ (by decide)

theorem ofNat_inj {i j : UInt16} (hi : i.toNat < rxBufSize) (hj : j.toNat < rxBufSize) :
    Fin.ofNat rxBufSize i.toNat = Fin.ofNat rxBufSize j.toNat ↔ i = j := by
  rw [Fin.ext_iff, Fin.val_ofNat, Fin.val_ofNat, Nat.mod_eq_of_lt hi, Nat.mod_eq_of_lt hj,
    UInt16.toNat_inj]

namespace WF

variable {r : RxRing}

theorem new : new.WF := ⟨by decide, by decide⟩

theorem contents_eq_nil_iff (h : r.WF) : r.contents = [] ↔ r.head = r.tail := by
  rw [contents, RingBuf.contents_eq_nil_iff]
  exact ofNat_inj h.head_lt h.tail_lt

theorem length_contents_le (_ : r.WF) : r.contents.length ≤ 255 := by
  have hlt := (r.toRing.head - r.toRing.tail).isLt
  rw [contents, RingBuf.length_contents]
  exact Nat.le_of_lt_succ hlt

theorem full_iff (h : r.WF) : (r.head + 1) &&& rxBufMask = r.tail ↔ r.contents.length = 255 := by
  have hfull := r.toRing.full_iff
  rw [show r.toRing.head + 1 = Fin.ofNat rxBufSize ((r.head + 1) &&& rxBufMask).toNat from
    (ofNat_masked_succ r.head).symm, toRing, ofNat_inj (masked_lt _) h.tail_lt] at hfull
  rw [hfull]
  show r.contents.length + 1 = 256 ↔ _
  omega

/-- A byte is rejected exactly when 255 are stored. -/
theorem rxPush_full (h : r.WF) (hfull : r.contents.length = 255) (byte : UInt8) :
    r.rxPush byte = some (r, false) := by
  unfold rxPush
  rw [if_pos (h.full_iff.mpr hfull)]

theorem rxPush_room (h : r.WF) (hroom : r.contents.length ≠ 255) (byte : UInt8) :
    ∃ r', r.rxPush byte = some (r', true) ∧ r'.WF ∧ r'.tail = r.tail ∧
      r'.contents = r.contents ++ [byte] := by
  have hne : ¬(r.head + 1) &&& rxBufMask = r.tail := fun heq => hroom (h.full_iff.mp heq)
  refine ⟨{ r with buf := r.buf.set r.head.toNat byte h.head_lt
                   head := (r.head + 1) &&& rxBufMask }, ?_, ⟨masked_lt _, h.tail_lt⟩, rfl, ?_⟩
  · unfold rxPush
    rw [if_neg hne, dif_pos h.head_lt]
  · have hhead : r.toRing.head.val = r.head.toNat := Nat.mod_eq_of_lt h.head_lt
    have hne' : r.toRing.head + 1 ≠ r.toRing.tail := by
      intro heq
      rw [show r.toRing.head + 1 = _ from (ofNat_masked_succ r.head).symm] at heq
      exact hne ((ofNat_inj (masked_lt _) h.tail_lt).mp heq)
    have hpush := RingBuf.contents_push hne' byte
    rw [← contents] at hpush
    rw [← hpush]
    unfold contents toRing RingBuf.push
    simp only [ofNat_masked_succ]
    congr 2
    simp only [Fin.val_ofNat, Nat.mod_eq_of_lt h.head_lt]

/-- The oldest byte is at `tail`, and goes with it. -/
theorem release (h : r.WF) (hne : r.head ≠ r.tail) :
    WF { r with tail := (r.tail + 1) &&& rxBufMask } ∧
    r.contents = r.buf.get ⟨r.tail.toNat, h.tail_lt⟩ ::
      contents { r with tail := (r.tail + 1) &&& rxBufMask } := by
  refine ⟨⟨h.head_lt, masked_lt _⟩, ?_⟩
  have hne' : r.toRing.head ≠ r.toRing.tail := fun heq =>
    hne ((ofNat_inj h.head_lt h.tail_lt).mp heq)
  have hrel := RingBuf.contents_release hne'
  unfold contents
  rw [hrel]
  unfold toRing RingBuf.release
  simp only [ofNat_masked_succ, Fin.val_ofNat, Nat.mod_eq_of_lt h.tail_lt]
  rfl

theorem rxPop (h : r.WF) : ∃ r' byte, r.rxPop = some (r', byte) ∧ r'.WF ∧
    r.contents = byte.toList ++ r'.contents ∧ (byte = none → r.contents = []) := by
  unfold RxRing.rxPop
  by_cases hempty : r.head = r.tail
  · rw [if_pos hempty]
    exact ⟨r, none, rfl, h, rfl, fun _ => h.contents_eq_nil_iff.mpr hempty⟩
  · obtain ⟨hwf, hcons⟩ := h.release hempty
    rw [if_neg hempty, dif_pos h.tail_lt]
    exact ⟨_, _, rfl, hwf, hcons, by simp⟩

end WF
/-- What a `rx_pop` in progress has loaded is still so. -/
def PopOk (ring : RxRing) : RxPopPc → Prop
  | .loadTail => True
  | .loadHead tail => tail = ring.tail
  | .read tail => tail = ring.tail ∧ ring.contents ≠ []
  | .storeTail tail byte => tail = ring.tail ∧ ring.contents.head? = some byte

/-- A `rx_push` of the interrupt does not disturb it. -/
theorem PopOk.push {ring ring' : RxRing} {byte : UInt8} {pc : RxPopPc} (h : ring.PopOk pc)
    (htail : ring'.tail = ring.tail) (hc : ring'.contents = ring.contents ++ [byte]) :
    ring'.PopOk pc := by
  cases pc with
  | loadTail => trivial
  | loadHead tail => exact h.trans htail.symm
  | read tail => exact ⟨h.1.trans htail.symm, by simp [hc]⟩
  | storeTail tail b =>
    refine ⟨h.1.trans htail.symm, ?_⟩
    rw [hc, List.head?_append, h.2]
    rfl

/-- An access of `rx_pop` goes on and leaves the ring alone, or returns the
oldest byte, or nothing where `head` was loaded and nothing is stored. -/
theorem PopOk.step {ring : RxRing} {pc : RxPopPc} (hwf : ring.WF) (h : ring.PopOk pc) :
    (∃ pc', ring.rxPopStep pc = some (ring, .inl pc') ∧ ring.PopOk pc') ∨
    ∃ ring' result, ring.rxPopStep pc = some (ring', .inr result) ∧ ring'.WF ∧
      ring.contents = result.toList ++ ring'.contents ∧
      (result = none → (∃ tail, pc = .loadHead tail) ∧ ring.contents = []) := by
  cases pc with
  | loadTail => exact Or.inl ⟨_, rfl, rfl⟩
  | loadHead tail =>
    obtain rfl : tail = ring.tail := h
    by_cases hempty : ring.head = ring.tail
    · have hnil := hwf.contents_eq_nil_iff.mpr hempty
      refine Or.inr ⟨ring, none, by rw [rxPopStep, if_pos hempty], hwf, rfl, fun _ => ?_⟩
      exact ⟨⟨_, rfl⟩, hnil⟩
    · refine Or.inl ⟨.read ring.tail, by rw [rxPopStep, if_neg hempty], rfl, fun hnil => ?_⟩
      exact hempty (hwf.contents_eq_nil_iff.mp hnil)
  | read tail =>
    obtain ⟨rfl, hne⟩ := h
    have hempty : ring.head ≠ ring.tail := fun heq => hne (hwf.contents_eq_nil_iff.mpr heq)
    obtain ⟨-, hcons⟩ := hwf.release hempty
    refine Or.inl ⟨.storeTail ring.tail (ring.buf.get ⟨ring.tail.toNat, hwf.tail_lt⟩), ?_, rfl, ?_⟩
    · rw [rxPopStep, dif_pos hwf.tail_lt]
      rfl
    · rw [hcons]
      rfl
  | storeTail tail byte =>
    obtain ⟨rfl, hhead⟩ := h
    have hempty : ring.head ≠ ring.tail := by
      intro heq
      rw [hwf.contents_eq_nil_iff.mpr heq] at hhead
      cases hhead
    obtain ⟨hwf', hcons⟩ := hwf.release hempty
    rw [hcons, List.head?_cons] at hhead
    refine Or.inr ⟨_, some byte, rfl, hwf', ?_, by simp⟩
    rw [hcons, Option.some.inj hhead]
    rfl

end RxRing

/-! ### A run of one consumer -/

/-- The ring, the `rx_pop` in progress, the bytes that `rx_push` took and what
`rx_pop` returned, the first first. -/
structure RxRun where
  ring : RxRing
  pop : Option RxPopPc
  accepted : List UInt8
  returned : List (Option UInt8)

/-- `pop` calls `rx_pop`, `tick` is its next access, `push` is a `rx_push` of
the interrupt. -/
inductive RxEvent
  | pop
  | tick
  | push (byte : UInt8)
  deriving DecidableEq

namespace RxRun

def init : RxRun := ⟨.new, none, [], []⟩

def step (l : RxRun) : RxEvent → Option RxRun
  | .pop => match l.pop with
    | some _ => none
    | none => some { l with pop := some .loadTail }
  | .tick => l.pop.bind fun pc => (l.ring.rxPopStep pc).map fun (ring, next) => match next with
    | .inl pc => { l with ring, pop := some pc }
    | .inr result => { l with ring, pop := none, returned := l.returned ++ [result] }
  | .push byte => (l.ring.rxPush byte).map fun (ring, took) =>
    { l with ring, accepted := l.accepted ++ if took then [byte] else [] }

/-- The bytes that were returned and those that are stored are those that were
taken, in order. -/
structure Fifo (l : RxRun) : Prop where
  wf : l.ring.WF
  order : l.accepted = l.returned.reduceOption ++ l.ring.contents
  pop : ∀ pc ∈ l.pop, l.ring.PopOk pc

/-- An access of `rx_pop` keeps the order, and returns nothing only where
`head` was loaded and nothing is stored. -/
theorem Fifo.tick {l : RxRun} {pc : RxPopPc} (h : l.Fifo) (hpc : l.pop = some pc) :
    ∃ l', step l .tick = some l' ∧ l'.Fifo ∧ (l'.returned = l.returned ++ [none] →
      (∃ tail, pc = .loadHead tail) ∧ l.ring.contents = []) := by
  rcases (h.pop pc hpc).step h.wf with ⟨pc', hs, hpop⟩ | ⟨ring', result, hs, hwf, hc, hnone⟩
  · refine ⟨{ l with pop := some pc' }, by simp [step, hpc, hs], ⟨h.wf, h.order, ?_⟩, by simp⟩
    rintro pc'' ⟨⟩
    exact hpop
  · refine ⟨{ l with ring := ring', pop := none, returned := l.returned ++ [result] },
      by simp [step, hpc, hs], ⟨hwf, ?_, by simp⟩, fun hret => hnone ?_⟩
    · rw [List.reduceOption_append, List.reduceOption_singleton, List.append_assoc, ← hc]
      exact h.order
    · simpa using hret

theorem Fifo.next {l l' : RxRun} {ev : RxEvent} (h : l.Fifo) (hs : step l ev = some l') :
    l'.Fifo := by
  cases ev with
  | pop =>
    cases hpop : l.pop with
    | some pc => simp [step, hpop] at hs
    | none =>
      simp only [step, hpop, Option.some.injEq] at hs
      rw [← hs]
      refine ⟨h.wf, h.order, ?_⟩
      rintro pc ⟨⟩
      trivial
  | tick =>
    cases hpop : l.pop with
    | none => simp [step, hpop] at hs
    | some pc =>
      obtain ⟨l'', hs'', hfifo, -⟩ := h.tick hpop
      rw [Option.some.inj (hs.symm.trans hs'')]
      exact hfifo
  | push byte =>
    obtain ⟨⟨ring, took⟩, hpush, rfl⟩ := Option.map_eq_some_iff.mp hs
    by_cases hfull : l.ring.contents.length = 255
    · rw [h.wf.rxPush_full hfull] at hpush
      obtain ⟨rfl, rfl⟩ := Prod.mk.inj (Option.some.inj hpush)
      exact ⟨h.wf, by simpa using h.order, h.pop⟩
    · obtain ⟨ring', hpush', hwf, htail, hc⟩ := h.wf.rxPush_room hfull byte
      rw [hpush'] at hpush
      obtain ⟨rfl, rfl⟩ := Prod.mk.inj (Option.some.inj hpush)
      refine ⟨hwf, ?_, fun pc hpc => (h.pop pc hpc).push htail hc⟩
      show l.accepted ++ [byte] = _ ++ ring'.contents
      rw [hc, h.order, List.append_assoc]

theorem fifo_of_reach {l : RxRun} (h : Reach step init l) : l.Fifo :=
  h.invariant (fun _ _ _ hf hs => hf.next hs) ⟨.new, rfl, by simp [init]⟩

/-! ### A pop comes to its end -/

/-- After `n` accesses more the `rx_pop` in progress returns `byte`, behind
what was `returned`. -/
inductive Popping (byte : UInt8) (returned : List (Option UInt8)) (l : RxRun) : ℕ → Prop
  | pc (pc : RxPopPc) : l.pop = some pc → l.ring.contents.head? = some byte →
      l.returned = returned → Popping byte returned l pc.left
  | ended : l.pop = none → l.returned = returned ++ [some byte] → Popping byte returned l 0

theorem Popping.tick {l : RxRun} {byte : UInt8} {returned : List (Option UInt8)} {n : ℕ}
    (h : l.Fifo) (hp : l.Popping byte returned (n + 1)) :
    ∃ l', step l .tick = some l' ∧ l'.Popping byte returned n := by
  generalize hn : n + 1 = m at hp
  cases hp with
  | ended => exact absurd hn (by simp)
  | pc pc hpc hbyte hret =>
    have hne : l.ring.head ≠ l.ring.tail := fun heq => by
      rw [h.wf.contents_eq_nil_iff.mpr heq] at hbyte
      cases hbyte
    have hok := h.pop pc hpc
    cases pc with
    | loadTail =>
      obtain rfl : n = 3 := Nat.succ.inj hn
      exact ⟨{ l with pop := some (.loadHead l.ring.tail) }, by simp [step, hpc, RxRing.rxPopStep],
        .pc (.loadHead l.ring.tail) rfl hbyte hret⟩
    | loadHead tail =>
      obtain rfl : n = 2 := Nat.succ.inj hn
      obtain rfl : tail = l.ring.tail := hok
      exact ⟨{ l with pop := some (.read l.ring.tail) },
        by simp [step, hpc, RxRing.rxPopStep, hne], .pc (.read l.ring.tail) rfl hbyte hret⟩
    | read tail =>
      obtain rfl : n = 1 := Nat.succ.inj hn
      obtain ⟨rfl, -⟩ := hok
      let b := l.ring.buf.get ⟨l.ring.tail.toNat, h.wf.tail_lt⟩
      have hread : l.ring.rxPopStep (.read l.ring.tail) =
          some (l.ring, .inl (.storeTail l.ring.tail b)) := by
        rw [RxRing.rxPopStep, dif_pos h.wf.tail_lt]
        rfl
      exact ⟨{ l with pop := some (.storeTail l.ring.tail b) }, by simp [step, hpc, hread],
        .pc (.storeTail l.ring.tail b) rfl hbyte hret⟩
    | storeTail tail b =>
      obtain rfl : n = 0 := Nat.succ.inj hn
      obtain rfl : b = byte := Option.some.inj (hok.2.symm.trans hbyte)
      exact ⟨_, by simp [step, hpc, RxRing.rxPopStep]; rfl, .ended rfl (by simp [hret])⟩

theorem Popping.push {l : RxRun} {byte : UInt8} {returned : List (Option UInt8)} {n : ℕ}
    (h : l.Fifo) (hp : l.Popping byte returned n) (b : UInt8) :
    ∃ l', step l (.push b) = some l' ∧ l'.Popping byte returned n := by
  by_cases hfull : l.ring.contents.length = 255
  · exact ⟨l, by simp [step, h.wf.rxPush_full hfull], hp⟩
  · obtain ⟨ring, hpush, -, -, hc⟩ := h.wf.rxPush_room hfull b
    refine ⟨{ l with ring, accepted := l.accepted ++ [b] }, by simp [step, hpush], ?_⟩
    cases hp with
    | pc pc hpc hbyte hret =>
      refine .pc pc hpc ?_ hret
      rw [hc, List.head?_append, hbyte]
      rfl
    | ended hnone hret => exact .ended hnone hret

/-- Whatever is pushed meanwhile. -/
theorem Popping.run {byte : UInt8} {returned : List (Option UInt8)} :
    ∀ (es : List RxEvent) {l : RxRun}, l.Fifo → RxEvent.pop ∉ es →
      l.Popping byte returned (es.count .tick) →
      ∃ l', exec step l es = some l' ∧ l'.pop = none ∧ l'.returned = returned ++ [some byte]
  | [], l, _, _, hp => by
    generalize hn : List.count RxEvent.tick [] = n at hp
    cases hp with
    | ended hnone hret => exact ⟨l, rfl, hnone, hret⟩
    | pc pc => cases pc <;> cases hn
  | .pop :: _, _, _, hes, _ => absurd List.mem_cons_self hes
  | .tick :: es, l, h, hes, hp => by
    rw [List.count_cons_self] at hp
    obtain ⟨l₁, hs, hp₁⟩ := hp.tick h
    obtain ⟨l', he, hend⟩ := Popping.run es (h.next hs) (fun hm => hes (.tail _ hm)) hp₁
    exact ⟨l', by rw [Transition.exec_cons, hs, Option.bind_some, he], hend⟩
  | .push b :: es, l, h, hes, hp => by
    rw [List.count_cons_of_ne (by simp)] at hp
    obtain ⟨l₁, hs, hp₁⟩ := hp.push h b
    obtain ⟨l', he, hend⟩ := Popping.run es (h.next hs) (fun hm => hes (.tail _ hm)) hp₁
    exact ⟨l', by rw [Transition.exec_cons, hs, Option.bind_some, he], hend⟩

/-- A `rx_pop` that finds a byte returns at its fourth access. -/
theorem Fifo.pop_ends {l : RxRun} (h : l.Fifo) (hpop : l.pop = none) {byte : UInt8}
    {bytes : List UInt8} (hc : l.ring.contents = byte :: bytes) {es : List RxEvent}
    (hes : RxEvent.pop ∉ es) (hcount : es.count .tick = 4) :
    ∃ l', exec step l (.pop :: es) = some l' ∧ l'.pop = none ∧
      l'.returned = l.returned ++ [some byte] := by
  have hs : step l .pop = some { l with pop := some .loadTail } := by simp [step, hpop]
  have hp : Popping byte l.returned { l with pop := some .loadTail } (es.count .tick) := by
    rw [hcount]
    exact .pc .loadTail rfl (by rw [hc]; rfl) rfl
  rw [Transition.exec_cons, hs, Option.bind_some]
  exact hp.run es (h.next hs) hes

/-- **A lossless FIFO up to its capacity**, in every state of every run. What
`rx_pop` returned, and then what is stored, is what `rx_push` took, in order;
the indices are below 256; a byte is rejected exactly when 255 are stored,
and changes nothing; `rx_pop` never panics, and returns `None` only from the
load of `head`, where nothing is stored; a `rx_pop` that is called where a byte
is stored ends with its fourth access, whatever is pushed meanwhile, and
returns the oldest. -/
theorem lossless_fifo {l : RxRun} (h : Reach step init l) :
    l.returned.reduceOption <+: l.accepted ∧
    l.accepted = l.returned.reduceOption ++ l.ring.contents ∧
    (l.ring.head.toNat < 256 ∧ l.ring.tail.toNat < 256) ∧
    (∀ byte,
      (l.ring.contents.length = 255 → l.ring.rxPush byte = some (l.ring, false)) ∧
      (l.ring.contents.length ≠ 255 → ∃ ring, l.ring.rxPush byte = some (ring, true) ∧
        ring.contents = l.ring.contents ++ [byte])) ∧
    (∀ pc, l.pop = some pc → ∃ l', step l .tick = some l' ∧
      (l'.returned = l.returned ++ [none] →
        (∃ tail, pc = .loadHead tail) ∧ l.ring.contents = [])) ∧
    (l.pop = none → ∀ byte bytes, l.ring.contents = byte :: bytes →
      ∀ es, RxEvent.pop ∉ es → es.count .tick = 4 →
        ∃ l', exec step l (.pop :: es) = some l' ∧ l'.pop = none ∧
          l'.returned = l.returned ++ [some byte]) := by
  have hf := fifo_of_reach h
  refine ⟨⟨l.ring.contents, hf.order.symm⟩, hf.order, ⟨hf.wf.head_lt, hf.wf.tail_lt⟩,
    fun byte => ⟨fun hfull => hf.wf.rxPush_full hfull byte, fun hroom => ?_⟩, fun pc hpc => ?_,
    fun hnone byte bytes hc es hes hcount => hf.pop_ends hnone hc hes hcount⟩
  · obtain ⟨ring, hpush, -, -, hc⟩ := hf.wf.rxPush_room hroom byte
    exact ⟨ring, hpush, hc⟩
  · obtain ⟨l', hs, -, hnone⟩ := hf.tick hpc
    exact ⟨l', hs, hnone⟩

/-- A byte comes while the first one is popped; then the ring is found empty. -/
theorem lossless_fifo_two : ∃ l : RxRun, Reach step init l ∧
    l.returned = [some 7, some 9, none] ∧ l.returned.reduceOption <+: l.accepted ∧
    l.ring.head.toNat < 256 := by
  have hobs : ((exec step init [.push 7, .pop, .tick, .tick, .tick, .push 9, .tick, .pop, .tick,
      .tick, .tick, .tick, .pop, .tick, .tick]).map RxRun.returned) =
      some [some 7, some 9, none] := by decide +kernel
  obtain ⟨l, hexec, hobs⟩ := Option.map_eq_some_iff.mp hobs
  have hreach : Reach step init l := Transition.reach_of_exec _ hexec
  have hl := lossless_fifo hreach
  exact ⟨l, hreach, hobs, hl.1, hl.2.2.1.1⟩

end RxRun
end RtAsync

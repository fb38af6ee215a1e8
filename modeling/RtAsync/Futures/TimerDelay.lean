/-
# Delays

`futures/src/timer.rs`: `TimerDelay` futures on `TIMER_QUEUE` and
`handle_timer_isr`. A poll makes one access at a time and other activations may
come between them: `Timers.polls` is the stack of the polls in progress, the
innermost first. The critical sections of the queue, the destructor and the
interrupt handler, which runs with interrupts disabled, are one step each. A
delay is named by the address of its `waker` field (any type `A` with
decidable equality), which is the `data` of its entry.

Two things go wrong. A poll that is preempted between its `schedule` and its
`set_deadline` stores a deadline that is no longer the earliest
(`Timers.ProgramOk`). A poll that returns `Ready` clears `registered` although
the entry may still be queued, so that the destructor does not cancel it
(`Timers.DropOk`).

Key definitions: `TimerDelay`, `Timers.step`, `Timers.CompareOk`,
`Timers.ProgramOk`, `Timers.EntriesLive`, `Timers.DropOk`.
Key theorems: `Timers.step_next`, `Timers.Covered.next`,
`Timers.compare_of_programOk`, `Timers.compare_overwritten`,
`Timers.Ledger.next`, `Timers.entries_live_iff`, `Timers.entry_outlives_delay`.
-/
import Mathlib.Data.List.Nodup
import Mathlib.Data.Set.Function
import RtAsync.Timer.TimerQueue

namespace RtAsync

open Function (update update_self update_of_ne)
open Transition (Along Always always_of_along always_iff_along exec)

variable {N : ℕ} {A W : Type}

/-! ### The source -/

structure TimerDelay (W : Type) where
  deadline : UInt64
  registered : Bool
  waker : Option W
  deriving DecidableEq

/-- The callbacks of `TIMER_QUEUE`. -/
inductive Callback
  | wakeTrampoline
  deriving DecidableEq, Repr

/-- The next access of `TimerDelay::poll`. -/
inductive DelayPc
  /-- Read the clock; with the deadline passed, clear `registered` and return. -/
  | check
  /-- Store `waker`. -/
  | storeWaker
  /-- `TIMER_QUEUE.schedule`. -/
  | schedule
  /-- `set_deadline`. -/
  | program
  /-- Set `registered`, and return `Pending`. -/
  | mark
  deriving DecidableEq, Repr

/-- A `TimerDelay::poll` in progress, of the delay at `addr` with waker `cx`. -/
structure DelayPoll (A W : Type) where
  addr : A
  cx : W
  pc : DelayPc
  deriving DecidableEq

/-- The clock, the last value that `set_deadline` stored, `TIMER_QUEUE`, the
delays that are alive and the polls in progress, innermost first. -/
structure Timers (N : ℕ) (A W : Type) where
  clock : UInt64
  compare : Option UInt64
  queue : TimerQueue N Callback A
  delays : A → Option (TimerDelay W)
  polls : List (DelayPoll A W)

/-- `after a deadline` makes a delay at the free address `a`; `tick` is the next
access of the innermost poll. -/
inductive TimersEvent (A W : Type)
  | after (a : A) (deadline : UInt64)
  | advance (now : UInt64)
  | poll (a : A) (w : W)
  | tick
  | drop (a : A)
  | isr

namespace Timers

def init : Timers N A W := ⟨0, none, .new, fun _ => none, []⟩

variable [DecidableEq A]

def setDelay (t : Timers N A W) (a : A) (d : TimerDelay W) : Timers N A W :=
  { t with delays := update t.delays a (some d) }

/-- The next access of the poll `f`, `fs` being the polls below it; `none` is
the panic of a full queue. -/
def tickStep (t : Timers N A W) (f : DelayPoll A W) (fs : List (DelayPoll A W))
    (d : TimerDelay W) : Option (Timers N A W) :=
  match f.pc with
  | .check =>
    if d.deadline ≤ t.clock then
      some { t.setDelay f.addr { d with registered := false } with polls := fs }
    else if !d.registered then some { t with polls := { f with pc := .storeWaker } :: fs }
    else some { t with polls := fs }
  | .storeWaker =>
    some { t.setDelay f.addr { d with waker := some f.cx } with
      polls := { f with pc := .schedule } :: fs }
  | .schedule =>
    (t.queue.schedule d.deadline .wakeTrampoline f.addr).map fun (queue, isEarliest) =>
      { t with queue, polls := { f with pc := if isEarliest then .program else .mark } :: fs }
  | .program =>
    some { t with compare := some d.deadline, polls := { f with pc := .mark } :: fs }
  | .mark => some { t.setDelay f.addr { d with registered := true } with polls := fs }

/-- `handle_timer_isr`; the wakes of the callbacks change nothing here. -/
def handleTimerIsr (t : Timers N A W) : Timers N A W :=
  let t := { t with compare := some 0xffffffffffffffff }
  let (queue, _, next) := t.queue.dequeueExpired t.clock
  match next with
  | none => { t with queue }
  | some d => { t with queue, compare := some d }

/-- A delay is polled by one activation at a time, and neither polled nor
dropped inside its poll. -/
def step (t : Timers N A W) : TimersEvent A W → Option (Timers N A W)
  | .after a deadline => match t.delays a with
    | some _ => none
    | none => some (t.setDelay a ⟨deadline, false, none⟩)
  | .advance now => if t.clock ≤ now then some { t with clock := now } else none
  | .poll a w =>
    if (t.delays a).isSome ∧ a ∉ t.polls.map DelayPoll.addr then
      some { t with polls := ⟨a, w, .check⟩ :: t.polls }
    else none
  | .tick => match t.polls with
    | [] => none
    | f :: fs => (t.delays f.addr).bind (t.tickStep f fs)
  | .drop a => (t.delays a).bind fun d =>
    if a ∈ t.polls.map DelayPoll.addr then none
    else some { t with
      queue := if d.registered then (t.queue.cancel a).1 else t.queue
      delays := update t.delays a none }
  | .isr => some t.handleTimerIsr

/-- What a step can do. -/
inductive Next (t : Timers N A W) : TimersEvent A W → Timers N A W → Prop
  | after {a : A} {deadline : UInt64} : t.delays a = none →
      Next t (.after a deadline) (t.setDelay a ⟨deadline, false, none⟩)
  | advance {now : UInt64} : t.clock ≤ now → Next t (.advance now) { t with clock := now }
  | poll {a : A} {w : W} : (t.delays a).isSome → a ∉ t.polls.map DelayPoll.addr →
      Next t (.poll a w) { t with polls := ⟨a, w, .check⟩ :: t.polls }
  | expire {f : DelayPoll A W} {fs : List (DelayPoll A W)} {d : TimerDelay W} :
      t.polls = f :: fs → t.delays f.addr = some d → d.deadline ≤ t.clock → f.pc = .check →
      Next t .tick { t.setDelay f.addr { d with registered := false } with polls := fs }
  | skip {f : DelayPoll A W} {fs : List (DelayPoll A W)} {d : TimerDelay W} :
      t.polls = f :: fs → t.delays f.addr = some d → d.registered = true → f.pc = .check →
      ¬d.deadline ≤ t.clock → Next t .tick { t with polls := fs }
  | register {f : DelayPoll A W} {fs : List (DelayPoll A W)} {d : TimerDelay W} :
      t.polls = f :: fs → t.delays f.addr = some d → ¬d.deadline ≤ t.clock →
      d.registered = false → f.pc = .check →
      Next t .tick { t with polls := { f with pc := .storeWaker } :: fs }
  | storeWaker {f : DelayPoll A W} {fs : List (DelayPoll A W)} {d : TimerDelay W} :
      t.polls = f :: fs → t.delays f.addr = some d → f.pc = .storeWaker →
      Next t .tick { t.setDelay f.addr { d with waker := some f.cx } with
        polls := { f with pc := .schedule } :: fs }
  | schedule {f : DelayPoll A W} {fs : List (DelayPoll A W)} {d : TimerDelay W}
      {q : TimerQueue N Callback A} {earliest : Bool} :
      t.polls = f :: fs → t.delays f.addr = some d → f.pc = .schedule →
      q.entries = t.queue.entries ++ [⟨d.deadline, .wakeTrampoline, f.addr⟩] →
      (earliest = true ↔ ∀ e ∈ t.queue.entries, d.deadline < e.deadline) →
      Next t .tick { t with
        queue := q, polls := { f with pc := if earliest then .program else .mark } :: fs }
  | program {f : DelayPoll A W} {fs : List (DelayPoll A W)} {d : TimerDelay W} :
      t.polls = f :: fs → t.delays f.addr = some d → f.pc = .program →
      Next t .tick { t with compare := some d.deadline, polls := { f with pc := .mark } :: fs }
  | mark {f : DelayPoll A W} {fs : List (DelayPoll A W)} {d : TimerDelay W} :
      t.polls = f :: fs → t.delays f.addr = some d → f.pc = .mark →
      Next t .tick { t.setDelay f.addr { d with registered := true } with polls := fs }
  | drop {a : A} {d : TimerDelay W} : t.delays a = some d → a ∉ t.polls.map DelayPoll.addr →
      Next t (.drop a) { t with
        queue := if d.registered then (t.queue.cancel a).1 else t.queue
        delays := update t.delays a none }
  | isr : Next t .isr t.handleTimerIsr

theorem tickStep_next {t t' : Timers N A W} {f : DelayPoll A W} {fs : List (DelayPoll A W)}
    {d : TimerDelay W} (hp : t.polls = f :: fs) (hd : t.delays f.addr = some d)
    (h : t.tickStep f fs d = some t') : Next t .tick t' := by
  unfold tickStep at h
  cases hpc : f.pc with
  | check =>
    simp only [hpc] at h
    by_cases hdue : d.deadline ≤ t.clock
    · rw [if_pos hdue, Option.some.injEq] at h
      exact h ▸ .expire hp hd hdue hpc
    · rw [if_neg hdue] at h
      cases hreg : d.registered with
      | false =>
        simp only [hreg, Bool.not_false, if_true, Option.some.injEq] at h
        exact h ▸ .register hp hd hdue hreg hpc
      | true =>
        simp only [hreg, Bool.not_true, Bool.false_eq_true, if_false, Option.some.injEq] at h
        exact h ▸ .skip hp hd hreg hpc hdue
  | storeWaker =>
    simp only [hpc, Option.some.injEq] at h
    exact h ▸ .storeWaker hp hd hpc
  | schedule =>
    simp only [hpc] at h
    obtain ⟨⟨q, earliest⟩, hq, rfl⟩ := Option.map_eq_some_iff.mp h
    obtain ⟨happ, hmin⟩ := TimerQueue.schedule_eq_some hq
    exact .schedule hp hd hpc happ hmin
  | program =>
    simp only [hpc, Option.some.injEq] at h
    exact h ▸ .program hp hd hpc
  | mark =>
    simp only [hpc, Option.some.injEq] at h
    exact h ▸ .mark hp hd hpc

theorem step_next {t t' : Timers N A W} {ev : TimersEvent A W} (h : step t ev = some t') :
    Next t ev t' := by
  cases ev with
  | after a deadline =>
    cases hd : t.delays a with
    | some d => simp [step, hd] at h
    | none =>
      simp only [step, hd, Option.some.injEq] at h
      exact h ▸ .after hd
  | advance now =>
    obtain ⟨hle, h⟩ := Option.ite_none_right_eq_some.mp h
    exact Option.some.inj h ▸ .advance hle
  | poll a w =>
    obtain ⟨⟨hlive, hfree⟩, h⟩ := Option.ite_none_right_eq_some.mp h
    exact Option.some.inj h ▸ .poll hlive hfree
  | tick =>
    cases hp : t.polls with
    | nil => simp [step, hp] at h
    | cons f fs =>
      simp only [step, hp] at h
      obtain ⟨d, hd, h⟩ := Option.bind_eq_some_iff.mp h
      exact tickStep_next hp hd h
  | drop a =>
    obtain ⟨d, hd, h⟩ := Option.bind_eq_some_iff.mp h
    obtain ⟨hfree, h⟩ := Option.ite_none_left_eq_some.mp h
    exact Option.some.inj h ▸ .drop hd hfree
  | isr => exact Option.some.inj h ▸ .isr

/-! ### The compare value -/

omit [DecidableEq A] in
/-- Outside polls and the handler, `set_deadline` stored a value last that no
entry is due before. -/
def CompareOk (t : Timers N A W) : Prop :=
  t.polls = [] → ∀ e ∈ t.queue.entries, ∃ c, t.compare = some c ∧ c ≤ e.deadline

/-- A poll that is about to store its deadline still has the earliest one. -/
def ProgramOk (t : Timers N A W) : TimersEvent A W → Prop
  | .tick => ∀ f ∈ t.polls.head?, f.pc = .program → ∀ d ∈ t.delays f.addr,
    ∀ e ∈ t.queue.entries, d.deadline ≤ e.deadline
  | _ => True

instance (t : Timers N A W) (ev : TimersEvent A W) : Decidable (t.ProgramOk ev) := by
  cases ev <;> unfold ProgramOk <;> infer_instance

/-- Some poll is about to store a value that is at most `limit`. -/
def WillProgram (delays : A → Option (TimerDelay W)) (polls : List (DelayPoll A W))
    (limit : UInt64) : Prop :=
  ∃ f ∈ polls, f.pc = .program ∧ ∃ d, delays f.addr = some d ∧ d.deadline ≤ limit

/-- Each entry is covered by the value stored last or by one about to be
stored. -/
def Covered (t : Timers N A W) : Prop :=
  ∀ e ∈ t.queue.entries, (∃ c, t.compare = some c ∧ c ≤ e.deadline) ∨
    WillProgram t.delays t.polls e.deadline

section WillProgram

variable {delays : A → Option (TimerDelay W)} {f : DelayPoll A W} {fs : List (DelayPoll A W)}
  {limit : UInt64}

omit [DecidableEq A] in
/-- Only a poll at its `set_deadline` counts. -/
theorem WillProgram.tail (h : WillProgram delays (f :: fs) limit) (hpc : f.pc ≠ .program) :
    WillProgram delays fs limit := by
  obtain ⟨g, hg, hgpc, hd⟩ := h
  rcases List.mem_cons.mp hg with rfl | hg
  · exact absurd hgpc hpc
  · exact ⟨g, hg, hgpc, hd⟩

omit [DecidableEq A] in
theorem WillProgram.cons (h : WillProgram delays fs limit) (f : DelayPoll A W) :
    WillProgram delays (f :: fs) limit := by
  obtain ⟨g, hg, h⟩ := h
  exact ⟨g, List.mem_cons_of_mem f hg, h⟩

/-- A delay keeps its deadline. -/
theorem WillProgram.update {a : A} {d d' : TimerDelay W} (h : WillProgram delays fs limit)
    (hd : delays a = some d) (heq : d'.deadline = d.deadline) :
    WillProgram (update delays a (some d')) fs limit := by
  obtain ⟨g, hg, hpc, dg, hdg, hle⟩ := h
  by_cases hga : g.addr = a
  · refine ⟨g, hg, hpc, d', by rw [hga, update_self], ?_⟩
    rw [hga, hd] at hdg
    rw [heq, Option.some.inj hdg]
    exact hle
  · exact ⟨g, hg, hpc, dg, by rw [update_of_ne hga, hdg], hle⟩

theorem WillProgram.update_free {a : A} (h : WillProgram delays fs limit)
    (o : Option (TimerDelay W)) (ha : ∀ f ∈ fs, f.pc = .program → (delays f.addr).isSome → f.addr ≠ a) :
    WillProgram (Function.update delays a o) fs limit := by
  obtain ⟨g, hg, hpc, dg, hdg, hle⟩ := h
  have hne : g.addr ≠ a := ha g hg hpc (by rw [hdg]; rfl)
  exact ⟨g, hg, hpc, dg, by rw [update_of_ne hne, hdg], hle⟩

end WillProgram

omit [DecidableEq A] in
/-- The innermost poll covers nothing before its `set_deadline`. -/
theorem Covered.tail {t : Timers N A W} {f : DelayPoll A W} {fs : List (DelayPoll A W)}
    (h : t.Covered) (hp : t.polls = f :: fs) (hpc : f.pc ≠ .program) :
    ∀ e ∈ t.queue.entries, (∃ c, t.compare = some c ∧ c ≤ e.deadline) ∨
      WillProgram t.delays fs e.deadline := by
  intro e he
  refine (h e he).imp_right fun hw => ?_
  rw [hp] at hw
  exact hw.tail hpc

theorem Covered.next {t t' : Timers N A W} {ev : TimersEvent A W} (h : t.Covered)
    (hok : t.ProgramOk ev) (hn : Next t ev t') : t'.Covered := by
  cases hn with
  | @after a deadline hfree =>
    intro e he
    refine (h e he).imp_right fun hw => hw.update_free _ fun f _ _ hlive hfa => ?_
    rw [hfa, hfree] at hlive
    cases hlive
  | advance => exact h
  | poll => exact fun e he => (h e he).imp_right fun hw => hw.cons _
  | expire hp hd _ hpc =>
    exact fun e he => (h.tail hp (by simp [hpc]) e he).imp_right fun hw => hw.update hd rfl
  | skip hp _ _ hpc => exact h.tail hp (by simp [hpc])
  | register hp _ _ _ hpc =>
    exact fun e he => (h.tail hp (by simp [hpc]) e he).imp_right fun hw => hw.cons _
  | @storeWaker f fs d hp hd hpc =>
    intro e he
    refine (h.tail hp (by simp [hpc]) e he).imp_right fun hw => ?_
    have hw' : WillProgram (update t.delays f.addr (some { d with waker := some f.cx })) fs
        e.deadline := hw.update hd rfl
    exact hw'.cons _
  | @schedule f fs d q earliest hp hd hpc happ hmin =>
    have hold := h.tail hp (by simp [hpc])
    intro e he
    change e ∈ q.entries at he
    rw [happ, List.mem_append, List.mem_singleton] at he
    rcases he with he | rfl
    · exact (hold e he).imp_right fun hw => hw.cons _
    · cases earliest with
      | true => exact Or.inr ⟨_, List.mem_cons_self, rfl, d, hd, UInt64.le_refl _⟩
      | false =>
        -- an entry that is due no later covers the new one
        have hex : ∃ e ∈ t.queue.entries, e.deadline ≤ d.deadline := by
          by_contra hno
          have hall : ∀ e ∈ t.queue.entries, d.deadline < e.deadline := by
            intro e he
            exact UInt64.not_le.mp fun hle => hno ⟨e, he, hle⟩
          cases hmin.mpr hall
        obtain ⟨e, he, hle⟩ := hex
        rcases hold e he with ⟨c, hc, hce⟩ | ⟨g, hg, hgpc, dg, hdg, hdge⟩
        · exact Or.inl ⟨c, hc, UInt64.le_trans hce hle⟩
        · exact Or.inr ⟨g, List.mem_cons_of_mem _ hg, hgpc, dg, hdg, UInt64.le_trans hdge hle⟩
  | @program f fs d hp hd hpc =>
    have hf : f ∈ t.polls.head? := by simp [hp]
    exact fun e he => Or.inl ⟨d.deadline, rfl, hok f hf hpc d hd e he⟩
  | mark hp hd hpc =>
    exact fun e he => (h.tail hp (by simp [hpc]) e he).imp_right fun hw => hw.update hd rfl
  | @drop a d hd hfree =>
    intro e he
    have he' : e ∈ t.queue.entries := by
      change e ∈ (if d.registered then (t.queue.cancel a).1 else t.queue).entries at he
      split at he
      · exact TimerQueue.mem_of_mem_cancel he
      · exact he
    refine (h e he').imp_right fun hw => hw.update_free _ fun f hf _ _ hfa => ?_
    exact hfree (List.mem_map.mpr ⟨f, hf, hfa⟩)
  | isr =>
    obtain ⟨-, -, hret⟩ := t.queue.dequeueExpired_perm t.clock
    intro e he
    unfold handleTimerIsr at he ⊢
    cases hmin : (t.queue.dequeueExpired t.clock).2.2 with
    | none =>
      simp only [hmin] at he
      rw [hret, TimerQueue.minDeadline_eq_none] at hmin
      rw [hmin] at he
      cases he
    | some m =>
      simp only [hmin] at he ⊢
      rw [hret, TimerQueue.minDeadline_eq_some] at hmin
      exact Or.inl ⟨m, rfl, hmin.2 e he⟩

omit [DecidableEq A] in
theorem Covered.compareOk {t : Timers N A W} (h : t.Covered) : t.CompareOk := by
  intro hp e he
  refine (h e he).resolve_right ?_
  rintro ⟨f, hf, _⟩
  rw [hp] at hf
  cases hf

/-- **The compare value covers every timer**, whenever no poll is in progress,
in a run in which a poll that stores its deadline still has the earliest
one. -/
theorem compare_of_programOk {es : List (TimersEvent A W)}
    (h : Along step ProgramOk (init : Timers N A W) es) :
    Always step CompareOk (init : Timers N A W) es :=
  always_of_along (I := Covered) (fun _ hc => hc.compareOk)
    (fun _ _ _ hc hok hs => hc.next hok (step_next hs)) (fun _ he => by cases he) h

/-- One poll, of a delay due at 10, and the interrupt at 10. -/
theorem compare_of_programOk_single :
    Always step CompareOk (init : Timers 16 (Fin 2) Unit)
      [.after 0 10, .poll 0 (), .tick, .tick, .tick, .tick, .tick, .advance 10, .isr] :=
  compare_of_programOk (by decide +kernel)

/-- The poll of the delay at 0 is preempted between `schedule` and
`set_deadline` by the whole poll of the delay at 1, which is due earlier. -/
def preempted : List (TimersEvent (Fin 2) Unit) :=
  [.after 0 10, .after 1 5, .poll 0 (), .tick, .tick, .tick, .poll 1 (), .tick, .tick, .tick,
    .tick, .tick, .tick, .tick]

/-- After `preempted` no poll is in progress, the timer is set to 10, and an
entry is due at 5. -/
theorem compare_overwritten : ∃ t : Timers 16 (Fin 2) Unit, exec step init preempted = some t ∧
    t.polls = [] ∧ t.compare = some 10 ∧ t.queue.entries.map Entry.deadline = [10, 5] ∧
    ¬Always step CompareOk (init : Timers 16 (Fin 2) Unit) preempted := by
  have hobs : ((exec step (init : Timers 16 (Fin 2) Unit) preempted).map fun t =>
      (t.polls, t.compare, t.queue.entries)) =
      some ([], some 10, [⟨10, .wakeTrampoline, 0⟩, ⟨5, .wakeTrampoline, 1⟩]) := by decide +kernel
  obtain ⟨t, hexec, hobs⟩ := Option.map_eq_some_iff.mp hobs
  obtain ⟨hp, hobs⟩ := Prod.mk.inj hobs
  obtain ⟨hc, he⟩ := Prod.mk.inj hobs
  refine ⟨t, hexec, hp, hc, by rw [he]; rfl, fun halways => ?_⟩
  obtain ⟨c, hc', hle⟩ := halways.of_exec hexec hp ⟨5, .wakeTrampoline, 1⟩ (by rw [he]; simp)
  rw [hc] at hc'
  obtain rfl := Option.some.inj hc'
  exact absurd hle (by decide)

/-! ### The lifetime of an entry -/

omit [DecidableEq A] in
/-- Each entry is that of a delay that is alive. -/
def EntriesLive (t : Timers N A W) : Prop := ∀ e ∈ t.queue.entries, (t.delays e.data).isSome

/-- A delay with `registered` clear is not dropped while its entry is queued. -/
def DropOk (t : Timers N A W) : TimersEvent A W → Prop
  | .drop a => ∀ d ∈ t.delays a, d.registered = false → ∀ e ∈ t.queue.entries, e.data ≠ a
  | _ => True

/-- The poll has put the entry of its delay in the queue. -/
def Scheduled (pc : DelayPc) : Prop := pc = .program ∨ pc = .mark

/-- The poll is going to put the entry of its delay in the queue. -/
def Unscheduled (pc : DelayPc) : Prop := pc = .storeWaker ∨ pc = .schedule

omit [DecidableEq A] in
/-- Each entry is that of one delay, which is alive; it is registered, or due, or
its poll is about to register it. -/
structure Ledger (t : Timers N A W) : Prop where
  live : t.EntriesLive
  nodup : (t.queue.entries.map Entry.data).Nodup
  polls_nodup : (t.polls.map DelayPoll.addr).Nodup
  known : ∀ e ∈ t.queue.entries, ∀ d, t.delays e.data = some d → d.registered = true ∨
    d.deadline ≤ t.clock ∨ ∃ f ∈ t.polls, f.addr = e.data ∧ Scheduled f.pc
  fresh : ∀ f ∈ t.polls, Unscheduled f.pc → ∀ e ∈ t.queue.entries, e.data ≠ f.addr

namespace Ledger

theorem live_update {t : Timers N A W} (h : t.EntriesLive) {a : A} (d : TimerDelay W) :
    ∀ e ∈ t.queue.entries, (update t.delays a (some d) e.data).isSome := by
  intro e he
  by_cases hea : e.data = a
  · rw [hea, update_self]
    rfl
  · rw [update_of_ne hea]
    exact h e he

omit [DecidableEq A] in
theorem polls_nodup_cons {t : Timers N A W} {f : DelayPoll A W} {fs : List (DelayPoll A W)}
    (h : t.Ledger) (hp : t.polls = f :: fs) : (f.addr :: fs.map DelayPoll.addr).Nodup := by
  have hnd := h.polls_nodup
  rwa [hp] at hnd

/-- An access of the innermost poll that leaves the queue alone: what it must
see to for its own delay. -/
theorem tick {t : Timers N A W} {f : DelayPoll A W} {fs : List (DelayPoll A W)}
    (h : t.Ledger) (hp : t.polls = f :: fs) (d' : TimerDelay W) (pc : Option DelayPc)
    (hknown : (∃ e ∈ t.queue.entries, e.data = f.addr) → d'.registered = true ∨
      d'.deadline ≤ t.clock ∨ ∃ p ∈ pc, Scheduled p)
    (hfresh : (∃ p ∈ pc, Unscheduled p) → ∀ e ∈ t.queue.entries, e.data ≠ f.addr) :
    Ledger { t.setDelay f.addr d' with
      polls := (pc.map fun p => { f with pc := p }).toList ++ fs } := by
  have hnd := h.polls_nodup_cons hp
  refine ⟨live_update h.live d', h.nodup, ?_, fun e he d₁ hd₁ => ?_, fun g hg hgpc e he => ?_⟩
  · cases pc with
    | none => exact (List.nodup_cons.mp hnd).2
    | some p => exact hnd
  · by_cases hea : e.data = f.addr
    · have hd₁' : update t.delays f.addr (some d') e.data = some d₁ := hd₁
      rw [hea, update_self] at hd₁'
      rw [← Option.some.inj hd₁']
      refine (hknown ⟨e, he, hea⟩).imp_right fun hk => hk.imp_right ?_
      rintro ⟨p, hpc, hsch⟩
      rw [Option.mem_def.mp hpc]
      exact ⟨{ f with pc := p }, List.mem_cons_self, hea.symm, hsch⟩
    · have hd₁' : update t.delays f.addr (some d') e.data = some d₁ := hd₁
      rw [update_of_ne hea] at hd₁'
      refine (h.known e he d₁ hd₁').imp_right fun hk => hk.imp_right ?_
      rintro ⟨g, hg, hga, hsch⟩
      rw [hp] at hg
      rcases List.mem_cons.mp hg with rfl | hg
      · exact absurd hga.symm hea
      · exact ⟨g, List.mem_append_right _ hg, hga, hsch⟩
  · rcases List.mem_append.mp hg with hg | hg
    · cases pc with
      | none => cases hg
      | some p =>
        obtain rfl := List.mem_singleton.mp hg
        exact hfresh ⟨p, rfl, hgpc⟩ e he
    · exact h.fresh g (hp ▸ List.mem_cons_of_mem f hg) hgpc e he

omit [DecidableEq A] in
/-- Only one poll of a delay is in progress. -/
theorem poll_eq {t : Timers N A W} (h : t.Ledger) {f g : DelayPoll A W} (hf : f ∈ t.polls)
    (hg : g ∈ t.polls) (ha : g.addr = f.addr) : g = f :=
  List.inj_on_of_nodup_map h.polls_nodup hg hf ha

theorem setDelay_self {t : Timers N A W} {a : A} {d : TimerDelay W} (hd : t.delays a = some d) :
    t.setDelay a d = t := by
  unfold setDelay
  rw [← hd, Function.update_eq_self]

omit [DecidableEq A] in
/-- Fewer entries, and any compare value. -/
theorem shrink {t : Timers N A W} (h : t.Ledger) {q : TimerQueue N Callback A}
    {removed : List (Entry Callback A)} (hperm : t.queue.entries.Perm (removed ++ q.entries))
    (compare : Option UInt64) : Ledger { t with queue := q, compare } := by
  have hsub : ∀ e ∈ q.entries, e ∈ t.queue.entries :=
    fun e he => hperm.mem_iff.mpr (List.mem_append_right removed he)
  refine ⟨fun e he => h.live e (hsub e he), ?_, h.polls_nodup,
    fun e he => h.known e (hsub e he), fun f hf hpc e he => h.fresh f hf hpc e (hsub e he)⟩
  have hnd : (removed.map Entry.data ++ q.entries.map Entry.data).Nodup := by
    rw [← List.map_append]
    exact (hperm.map Entry.data).nodup_iff.mp h.nodup
  exact hnd.of_append_right

/-- A delay without an entry goes. -/
theorem drop {t : Timers N A W} (h : t.Ledger) {a : A}
    (hnone : ∀ e ∈ t.queue.entries, e.data ≠ a) :
    Ledger { t with delays := update t.delays a none } := by
  refine ⟨fun e he => ?_, h.nodup, h.polls_nodup, fun e he d hd => ?_, h.fresh⟩
  · show (update t.delays a none e.data).isSome
    rw [update_of_ne (hnone e he)]
    exact h.live e he
  · have hd' : update t.delays a none e.data = some d := hd
    rw [update_of_ne (hnone e he)] at hd'
    exact h.known e he d hd'

/-- A delay at an address that no delay has. -/
theorem after {t : Timers N A W} (h : t.Ledger) {a : A} (hfree : t.delays a = none)
    (d : TimerDelay W) : Ledger (t.setDelay a d) := by
  have hne : ∀ e ∈ t.queue.entries, e.data ≠ a := by
    rintro e he rfl
    have hlive := h.live e he
    rw [hfree] at hlive
    cases hlive
  refine ⟨live_update h.live d, h.nodup, h.polls_nodup, fun e he d₁ hd₁ => ?_, h.fresh⟩
  have hd₁' : update t.delays a (some d) e.data = some d₁ := hd₁
  rw [update_of_ne (hne e he)] at hd₁'
  exact h.known e he d₁ hd₁'

omit [DecidableEq A] in
/-- A poll of a delay that no other poll is about. -/
theorem poll {t : Timers N A W} (h : t.Ledger) {a : A} (w : W)
    (hfree : a ∉ t.polls.map DelayPoll.addr) :
    Ledger { t with polls := ⟨a, w, .check⟩ :: t.polls } := by
  refine ⟨h.live, h.nodup, List.nodup_cons.mpr ⟨hfree, h.polls_nodup⟩, fun e he d hd => ?_,
    fun f hf hpc => ?_⟩
  · refine (h.known e he d hd).imp_right fun hk => hk.imp_right ?_
    rintro ⟨f, hf, hsch⟩
    exact ⟨f, List.mem_cons_of_mem _ hf, hsch⟩
  · rcases List.mem_cons.mp hf with rfl | hf
    · rcases hpc with hpc | hpc <;> cases hpc
    · exact h.fresh f hf hpc

omit [DecidableEq A] in
/-- A delay that its poll is about to register has no entry. -/
theorem no_entry {t : Timers N A W} (h : t.Ledger) {f : DelayPoll A W} {fs : List (DelayPoll A W)}
    {d : TimerDelay W} (hp : t.polls = f :: fs) (hd : t.delays f.addr = some d)
    (hdue : ¬d.deadline ≤ t.clock) (hreg : d.registered = false) (hpc : f.pc = .check) :
    ∀ e ∈ t.queue.entries, e.data ≠ f.addr := by
  intro e he hea
  have hf : f ∈ t.polls := by simp [hp]
  rcases h.known e he d (hea ▸ hd) with hreg' | hdue' | ⟨g, hg, hga, hsch⟩
  · rw [hreg] at hreg'
    cases hreg'
  · exact hdue hdue'
  · rw [h.poll_eq hf hg (hga.trans hea), hpc] at hsch
    rcases hsch with hsch | hsch <;> cases hsch

omit [DecidableEq A] in
/-- The entry of a delay that had none, put in by its poll. -/
theorem schedule {t : Timers N A W} (h : t.Ledger) {f : DelayPoll A W}
    {fs : List (DelayPoll A W)} {d : TimerDelay W} {q : TimerQueue N Callback A} {pc : DelayPc}
    (hp : t.polls = f :: fs) (hd : t.delays f.addr = some d) (hpc : f.pc = .schedule)
    (happ : q.entries = t.queue.entries ++ [⟨d.deadline, .wakeTrampoline, f.addr⟩])
    (hsch : Scheduled pc) : Ledger { t with queue := q, polls := { f with pc } :: fs } := by
  have hf : f ∈ t.polls := by simp [hp]
  have hnone := h.fresh f hf (Or.inr hpc)
  have hnd := h.polls_nodup_cons hp
  have hmem : ∀ e, e ∈ q.entries ↔
      e ∈ t.queue.entries ∨ e = ⟨d.deadline, .wakeTrampoline, f.addr⟩ := by
    intro e
    rw [happ, List.mem_append, List.mem_singleton]
  refine ⟨fun e he => ?_, ?_, hnd, fun e he d₁ hd₁ => ?_, fun g hg hgpc e he => ?_⟩
  · rcases (hmem e).mp he with he | rfl
    · exact h.live e he
    · show (t.delays f.addr).isSome
      rw [hd]
      rfl
  · show (q.entries.map Entry.data).Nodup
    rw [happ, List.map_append]
    refine h.nodup.append (List.nodup_singleton _) (List.disjoint_singleton.mpr ?_)
    intro hin
    obtain ⟨e, he, hea⟩ := List.mem_map.mp hin
    exact hnone e he hea
  · rcases (hmem e).mp he with hold | rfl
    · refine (h.known e hold d₁ hd₁).imp_right fun hk => hk.imp_right ?_
      rintro ⟨g, hg, hga, hgsch⟩
      rw [hp] at hg
      rcases List.mem_cons.mp hg with rfl | hg
      · exact absurd hga.symm (hnone e hold)
      · exact ⟨g, List.mem_cons_of_mem _ hg, hga, hgsch⟩
    · exact Or.inr (Or.inr ⟨_, List.mem_cons_self, rfl, hsch⟩)
  · rcases List.mem_cons.mp hg with rfl | hg
    · rcases hsch with hsch | hsch <;> rcases hgpc with hgpc | hgpc <;> simp [hsch] at hgpc
    · rcases (hmem e).mp he with he | rfl
      · exact h.fresh g (hp ▸ List.mem_cons_of_mem f hg) hgpc e he
      · rintro hga
        exact (List.nodup_cons.mp hnd).1 (List.mem_map.mpr ⟨g, hg, hga.symm⟩)

/-- A registered delay goes, with the entry that it has. -/
theorem cancel {t : Timers N A W} (h : t.Ledger) (a : A) :
    Ledger { t with queue := (t.queue.cancel a).1, delays := update t.delays a none } := by
  rcases t.queue.cancel_cases a with ⟨-, e, hea, -, hperm⟩ | ⟨hc, hnone⟩
  · have hq : Ledger { t with queue := (t.queue.cancel a).1 } :=
      shrink h (show t.queue.entries.Perm ([e] ++ (t.queue.cancel a).1.entries) from hperm)
        t.compare
    refine hq.drop fun e' he' hea' => ?_
    have hnd := (hperm.map Entry.data).nodup_iff.mp h.nodup
    exact (List.nodup_cons.mp hnd).1 (List.mem_map.mpr ⟨e', he', hea'.trans hea.symm⟩)
  · rw [hc]
    exact h.drop hnone

omit [DecidableEq A] in
theorem isr {t : Timers N A W} (h : t.Ledger) : Ledger t.handleTimerIsr := by
  have hperm := t.queue.dequeueExpired_split t.clock
  unfold handleTimerIsr
  cases hmin : (t.queue.dequeueExpired t.clock).2.2 with
  | none =>
    simp only [hmin]
    exact h.shrink hperm _
  | some m =>
    simp only [hmin]
    exact h.shrink hperm _

theorem next {t t' : Timers N A W} {ev : TimersEvent A W} (h : t.Ledger) (hok : t.DropOk ev)
    (hn : Next t ev t') : t'.Ledger := by
  cases hn with
  | after hfree => exact h.after hfree _
  | @advance now hle =>
    refine ⟨h.live, h.nodup, h.polls_nodup, fun e he d hd => ?_, h.fresh⟩
    exact (h.known e he d hd).imp_right fun hk => hk.imp_left fun hdue => UInt64.le_trans hdue hle
  | poll _ hfree => exact h.poll _ hfree
  | @expire f fs d hp hd hdue _ =>
    exact h.tick hp { d with registered := false } none (fun _ => Or.inr (Or.inl hdue))
      (by simp)
  | @skip f fs d hp hd hreg _ =>
    have hskip := h.tick hp d none (fun _ => Or.inl hreg) (by simp)
    rwa [setDelay_self hd] at hskip
  | @register f fs d hp hd hdue hreg hpc =>
    have hnone := h.no_entry hp hd hdue hreg hpc
    have hregister := h.tick hp d (some .storeWaker) (fun ⟨e, he, hea⟩ => absurd hea (hnone e he))
      fun _ => hnone
    rwa [setDelay_self hd] at hregister
  | @storeWaker f fs d hp hd hpc =>
    have hf : f ∈ t.polls := by simp [hp]
    have hnone := h.fresh f hf (Or.inl hpc)
    exact h.tick hp { d with waker := some f.cx } (some .schedule)
      (fun ⟨e, he, hea⟩ => absurd hea (hnone e he)) fun _ => hnone
  | @schedule f fs d q earliest hp hd hpc happ _ =>
    refine h.schedule hp hd hpc happ ?_
    cases earliest with
    | true => exact Or.inl rfl
    | false => exact Or.inr rfl
  | @program f fs d hp hd hpc =>
    have hmark := h.tick hp d (some .mark) (fun _ => Or.inr (Or.inr ⟨.mark, rfl, Or.inr rfl⟩))
      (by simp [Unscheduled])
    rw [setDelay_self hd] at hmark
    exact ⟨hmark.live, hmark.nodup, hmark.polls_nodup, hmark.known, hmark.fresh⟩
  | @mark f fs d hp hd hpc =>
    exact h.tick hp { d with registered := true } none (fun _ => Or.inl rfl) (by simp)
  | @drop a d hd _ =>
    cases hreg : d.registered with
    | false => exact h.drop (hok d hd hreg)
    | true => exact h.cancel a
  | isr => exact h.isr

end Ledger

/-- A drop that leaves no entry of a dead delay has cancelled its own. -/
theorem DropOk.of_live {t t' : Timers N A W} {ev : TimersEvent A W} (hn : Next t ev t')
    (h : t'.EntriesLive) : t.DropOk ev := by
  cases hn with
  | @drop a d hd hfree =>
    intro d' hd' hreg e he hea
    rw [← Option.some.inj (hd.symm.trans hd')] at hreg
    have he' : e ∈ (if d.registered then (t.queue.cancel a).1 else t.queue).entries := by
      rwa [hreg, if_neg Bool.false_ne_true]
    have hlive : (update t.delays a none e.data).isSome := h e he'
    rw [hea, update_self] at hlive
    cases hlive
  | _ => trivial

omit [DecidableEq A] in
theorem ledger_init : (init : Timers N A W).Ledger :=
  ⟨fun _ he => by (cases he), List.nodup_nil, List.nodup_nil, fun _ he => by (cases he),
    fun _ hf => by (cases hf)⟩

/-- **No entry outlives its delay**, in every state that a run visits, exactly
when the run drops no delay with `registered` clear whose entry is queued. -/
theorem entries_live_iff (es : List (TimersEvent A W)) :
    Always step EntriesLive (init : Timers N A W) es ↔
      Along step DropOk (init : Timers N A W) es := by
  refine always_iff_along (I := Ledger) (fun t h => h.live) ?_ ?_ ledger_init
  · intro t ev t' h hok hs
    exact h.next hok (step_next hs)
  · intro t ev t' _ hs h
    exact .of_live (step_next hs) h

/-- The delay at 0 is polled before and after its deadline, and dropped before
the interrupt comes. -/
def readyBeforeIsr : List (TimersEvent (Fin 2) Unit) :=
  [.after 0 5, .poll 0 (), .tick, .tick, .tick, .tick, .tick, .advance 7, .poll 0 (), .tick,
    .drop 0]

/-- After `readyBeforeIsr` the entry of the dead delay is queued. -/
theorem entry_outlives_delay : ∃ t : Timers 16 (Fin 2) Unit,
    exec step init readyBeforeIsr = some t ∧ t.polls = [] ∧ t.delays 0 = none ∧
    t.queue.entries = [⟨5, .wakeTrampoline, 0⟩] ∧
    ¬Always step EntriesLive (init : Timers 16 (Fin 2) Unit) readyBeforeIsr := by
  have hobs : ((exec step (init : Timers 16 (Fin 2) Unit) readyBeforeIsr).map fun t =>
      (t.polls, t.delays 0, t.queue.entries)) =
      some ([], none, [⟨5, .wakeTrampoline, 0⟩]) := by decide +kernel
  obtain ⟨t, hexec, hobs⟩ := Option.map_eq_some_iff.mp hobs
  obtain ⟨hp, hobs⟩ := Prod.mk.inj hobs
  obtain ⟨hd, he⟩ := Prod.mk.inj hobs
  refine ⟨t, hexec, hp, hd, he, fun halways => ?_⟩
  have hlive := halways.of_exec hexec ⟨5, .wakeTrampoline, 0⟩ (by rw [he]; simp)
  rw [hd] at hlive
  cases hlive

end Timers
end RtAsync

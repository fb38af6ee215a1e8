/-
# Who is woken when a delay expires

Beside the delays, for each of them: its poll in progress, with the waker that
poll was given, whether that waker has been woken since the poll began, and
what the poll returns once that is decided; how its last poll ended; and
whether the interrupt handler has found the deadline passed since that poll
returned. A poll returns in a step of its own, so that the handler may come
between its last access and the return.

`TimerDelay::poll` stores the waker of the poll that registers the delay and
of no later one. `DelayWakes.RepollOk` says that the later ones are given the
same waker.

Key definitions: `DelayWakes`, `DelayWakes.step`, `DelayWakes.WakesLast`,
`DelayWakes.RepollOk`.
Key theorems: `DelayWakes.step_next`, `DelayWakes.Good.frame`,
`DelayWakes.Inv.next`, `DelayWakes.wakes_last`, `DelayWakes.stale_waker`.
-/
import RtAsync.Futures.Poll
import RtAsync.Futures.TimerDelay

namespace RtAsync

open Function (update update_self update_of_ne)
open Transition (Along Always always_of_along exec)

variable {N : ℕ} {A W : Type}

/-! ### The history -/

/-- A poll that has not returned yet: its waker, whether that has been woken
since the poll began, and what the poll returns, once that is decided. -/
structure CurrentPoll (W : Type) where
  cx : W
  woken : Bool
  result : Option (Poll Unit)
  deriving DecidableEq

/-- The delays, the polls that have not returned, innermost first, and what is
kept for each delay. -/
structure DelayWakes (N : ℕ) (A W : Type) where
  timers : Timers N A W
  stack : List A
  current : A → Option (CurrentPoll W)
  last : A → LastPoll W
  served : A → Bool

/-- An access to the timers, or the return of the innermost poll. -/
inductive DelayWakesEvent (A W : Type)
  | access (ev : TimersEvent A W)
  | ret

namespace Timers

/-- What the next access of the innermost poll decides. -/
def decides (t : Timers N A W) : Option (A × Poll Unit) :=
  match t.polls with
  | [] => none
  | f :: _ => (t.delays f.addr).bind fun d => match f.pc with
    | .check =>
      if d.deadline ≤ t.clock then some (f.addr, .ready ())
      else if !d.registered then none
      else some (f.addr, .pending)
    | .mark => some (f.addr, .pending)
    | _ => none

/-- The wakers that the callbacks of `handle_timer_isr` wake. The entry of a
delay that is gone points to freed memory, and wakes nobody here. -/
def isrWakes (t : Timers N A W) : List W :=
  (t.queue.dequeueExpired t.clock).2.1.filterMap fun e => (t.delays e.data).bind TimerDelay.waker

end Timers

/-- The handler takes the entries that are due from the queue, and programs the
timer. -/
theorem Timers.handleTimerIsr_eq (t : Timers N A W) : ∃ compare, t.handleTimerIsr =
    { t with queue := (t.queue.dequeueExpired t.clock).1, compare } := by
  unfold Timers.handleTimerIsr
  cases hmin : (t.queue.dequeueExpired t.clock).2.2 with
  | none => exact ⟨some 0xffffffffffffffff, by simp only [hmin]⟩
  | some m => exact ⟨some m, by simp only [hmin]⟩

namespace DelayWakes

def init : DelayWakes N A W := ⟨.init, [], fun _ => none, fun _ => .unpolled, fun _ => false⟩

section Step

variable [DecidableEq A]

/-- A delay that is in a poll is neither polled nor dropped, and it is the
innermost poll that makes an access. -/
def Allowed (h : DelayWakes N A W) : TimersEvent A W → Bool
  | .poll a _ => (h.current a).isNone
  | .drop a => (h.current a).isNone
  | .tick => h.stack.head? = h.timers.polls.head?.map DelayPoll.addr
  | _ => true

variable [DecidableEq W]

/-- What is kept, after an access that has led to `t`. -/
def note (h : DelayWakes N A W) (t : Timers N A W) : TimersEvent A W → DelayWakes N A W
  | .after a _ =>
    { h with timers := t, last := update h.last a .unpolled, served := update h.served a false }
  | .drop a =>
    { h with timers := t, last := update h.last a .unpolled, served := update h.served a false }
  | .advance _ => { h with timers := t }
  | .poll a w =>
    { h with timers := t, stack := a :: h.stack, current := update h.current a (some ⟨w, false, none⟩) }
  | .tick => match h.timers.decides with
    | none => { h with timers := t }
    | some (a, r) => { h with
        timers := t
        current := update h.current a ((h.current a).map fun c => { c with result := some r }) }
  | .isr =>
    let ws := h.timers.isrWakes
    { h with
      timers := t
      current := fun a => (h.current a).map fun c => { c with woken := c.woken || c.cx ∈ ws }
      last := fun a => (h.last a).wakeAll ws
      served := fun a => h.served a ||
        (h.timers.delays a).any fun d => decide (d.deadline ≤ h.timers.clock) }

def step (h : DelayWakes N A W) : DelayWakesEvent A W → Option (DelayWakes N A W)
  | .access ev => if h.Allowed ev then (h.timers.step ev).map fun t => h.note t ev else none
  | .ret => match h.stack with
    | [] => none
    | a :: stack => match h.current a with
      | some ⟨cx, woken, some r⟩ => some { h with
          stack
          current := update h.current a none
          last := update h.last a (match r with
            | .ready () => .ready
            | .pending => .pending cx woken)
          served := update h.served a false }
      | _ => none

end Step

/-- A delay whose deadline the handler has found passed since the last poll
returned `Pending` has woken the waker of that poll. -/
def WakesLast (h : DelayWakes N A W) : Prop :=
  ∀ a w woken, h.last a = .pending w woken → h.served a = true → woken = true

/-- A poll of a delay that is registered and not due is given the waker that
the delay has stored. -/
def RepollOk (h : DelayWakes N A W) : DelayWakesEvent A W → Prop
  | .access .tick => ∀ f ∈ h.timers.polls.head?, f.pc = .check → ∀ d ∈ h.timers.delays f.addr,
    d.registered = true → ¬d.deadline ≤ h.timers.clock → d.waker = some f.cx
  | _ => True

/-! ### What holds of one delay -/

section Good

/-- The entry of the delay at `a` is in the queue. -/
def Queued (t : Timers N A W) (a : A) (d : TimerDelay W) : Prop :=
  ∃ e ∈ t.queue.entries, e.data = a ∧ e.deadline = d.deadline

/-- The entry of the delay is in the queue, or the deadline has passed. -/
def Enrolled (t : Timers N A W) (a : A) (d : TimerDelay W) : Prop :=
  Queued t a d ∨ d.deadline ≤ t.clock

/-- The waker `w` has been woken, or the entry in the queue is going to wake
it. -/
def Armed (t : Timers N A W) (a : A) (d : TimerDelay W) (w : W) (woken : Bool) : Prop :=
  woken = true ∨ (d.waker = some w ∧ Queued t a d)

/-- The delay will not be registered again. -/
def Settled (t : Timers N A W) (d : TimerDelay W) : Prop :=
  d.registered = true ∨ d.deadline ≤ t.clock

/-- How far a poll has come that was given the waker `cx`. -/
def Progress (t : Timers N A W) (a : A) (d : TimerDelay W) (l : LastPoll W) (cx : W) (woken : Bool) :
    DelayPc → Prop
  | .check => True
  | .storeWaker => l.isPending = false
  | .schedule => l.isPending = false ∧ d.waker = some cx
  | .program => Enrolled t a d ∧ Armed t a d cx woken
  | .mark => Enrolled t a d ∧ Armed t a d cx woken

/-- What holds of the delay at `a`, whose poll in progress is `o`, whose last
poll ended with `l` and which the handler has found due if `served`. -/
structure Good (t : Timers N A W) (a : A) (o : Option (CurrentPoll W)) (l : LastPoll W)
    (served : Bool) : Prop where
  polling : ∀ f ∈ t.polls, f.addr = a → ∃ d woken, t.delays a = some d ∧
    o = some ⟨f.cx, woken, none⟩ ∧ Progress t a d l f.cx woken f.pc
  registered : ∀ d, t.delays a = some d → d.registered = true → Enrolled t a d
  decided : ∀ cx woken, o = some ⟨cx, woken, some .pending⟩ →
    ∃ d, t.delays a = some d ∧ Armed t a d cx woken ∧ Settled t d
  last : ∀ w woken, l = .pending w woken →
    ∃ d, t.delays a = some d ∧ Armed t a d w woken ∧ Settled t d
  wakes : ∀ w woken, l = .pending w woken → served = true → woken = true

variable {t t' : Timers N A W} {a : A} {d : TimerDelay W} {w : W} {woken : Bool}

theorem Queued.mono (h : Queued t a d)
    (hq : ∀ e ∈ t.queue.entries, e.data = a → e ∈ t'.queue.entries) : Queued t' a d := by
  obtain ⟨e, he, hea, hed⟩ := h
  exact ⟨e, hq e he hea, hea, hed⟩

theorem Enrolled.mono (h : Enrolled t a d)
    (hq : ∀ e ∈ t.queue.entries, e.data = a → e ∈ t'.queue.entries) (hc : t.clock ≤ t'.clock) :
    Enrolled t' a d :=
  h.imp (fun h => h.mono hq) fun h => UInt64.le_trans h hc

theorem Armed.mono (h : Armed t a d w woken)
    (hq : ∀ e ∈ t.queue.entries, e.data = a → e ∈ t'.queue.entries) : Armed t' a d w woken :=
  h.imp_right fun h => ⟨h.1, h.2.mono hq⟩

theorem Settled.mono (h : Settled t d) (hc : t.clock ≤ t'.clock) : Settled t' d :=
  h.imp_right fun h => UInt64.le_trans h hc

theorem Progress.mono {l : LastPoll W} {pc : DelayPc} (h : Progress t a d l w woken pc)
    (hq : ∀ e ∈ t.queue.entries, e.data = a → e ∈ t'.queue.entries) (hc : t.clock ≤ t'.clock) :
    Progress t' a d l w woken pc := by
  cases pc with
  | program => exact ⟨h.1.mono hq hc, h.2.mono hq⟩
  | mark => exact ⟨h.1.mono hq hc, h.2.mono hq⟩
  | _ => exact h

/-- What is not about the delay leaves it as it is, as long as its entry stays
in the queue. -/
theorem Good.frame {o : Option (CurrentPoll W)} {l : LastPoll W} {served : Bool}
    (h : Good t a o l served) (hd : t'.delays a = t.delays a)
    (hp : ∀ f ∈ t'.polls, f.addr = a → f ∈ t.polls)
    (hq : ∀ e ∈ t.queue.entries, e.data = a → e ∈ t'.queue.entries) (hc : t.clock ≤ t'.clock) :
    Good t' a o l served := by
  refine ⟨fun f hf hfa => ?_, fun d hd' hreg => ?_, fun cx woken ho => ?_, fun w woken hl => ?_,
    h.wakes⟩
  · obtain ⟨d, woken, hd', ho, hprog⟩ := h.polling f (hp f hf hfa) hfa
    exact ⟨d, woken, hd.trans hd', ho, hprog.mono hq hc⟩
  · exact (h.registered d (hd ▸ hd') hreg).mono hq hc
  · obtain ⟨d, hd', harm, hset⟩ := h.decided cx woken ho
    exact ⟨d, hd.trans hd', harm.mono hq, hset.mono hc⟩
  · obtain ⟨d, hd', harm, hset⟩ := h.last w woken hl
    exact ⟨d, hd.trans hd', harm.mono hq, hset.mono hc⟩

/-- The handler fires an entry that is due, and leaves it in the queue
otherwise. -/
theorem isr_cases {e : Entry Callback A} (he : e ∈ t.queue.entries) :
    (e.deadline ≤ t.clock ∧ e ∈ (t.queue.dequeueExpired t.clock).2.1) ∨
    (¬e.deadline ≤ t.clock ∧ e ∈ t.handleTimerIsr.queue.entries) := by
  obtain ⟨hfired, hkept, -⟩ := t.queue.dequeueExpired_perm t.clock
  by_cases hdue : e.deadline ≤ t.clock
  · exact Or.inl ⟨hdue, hfired.mem_iff.mpr (List.mem_filter.mpr ⟨he, by simpa using hdue⟩)⟩
  · obtain ⟨compare, heq⟩ := t.handleTimerIsr_eq
    rw [heq]
    exact Or.inr ⟨hdue, hkept.mem_iff.mpr (List.mem_filter.mpr ⟨he, by simpa using hdue⟩)⟩

theorem isr_fields (t : Timers N A W) : t.handleTimerIsr.delays = t.delays ∧
    t.handleTimerIsr.polls = t.polls ∧ t.handleTimerIsr.clock = t.clock := by
  obtain ⟨compare, heq⟩ := t.handleTimerIsr_eq
  rw [heq]
  exact ⟨rfl, rfl, rfl⟩

theorem Enrolled.isr (h : Enrolled t a d) : Enrolled t.handleTimerIsr a d := by
  unfold Enrolled
  rw [(isr_fields t).2.2]
  rcases h with ⟨e, he, hea, hed⟩ | hdue
  · rcases isr_cases he with ⟨hdue, -⟩ | ⟨-, he'⟩
    · exact Or.inr (hed ▸ hdue)
    · exact Or.inl ⟨e, he', hea, hed⟩
  · exact Or.inr hdue

theorem Settled.isr (h : Settled t d) : Settled t.handleTimerIsr d := by
  unfold Settled
  rw [(isr_fields t).2.2]
  exact h

variable [DecidableEq W]

/-- The handler wakes a waker that is armed, once the deadline has passed. -/
theorem Armed.isr (h : Armed t a d w woken) (hd : t.delays a = some d) :
    Armed t.handleTimerIsr a d w (woken || decide (w ∈ t.isrWakes)) := by
  rcases h with rfl | ⟨hw, e, he, hea, hed⟩
  · exact Or.inl (Bool.true_or _)
  · rcases isr_cases he with ⟨-, hfired⟩ | ⟨-, he'⟩
    · have hin : w ∈ t.isrWakes := List.mem_filterMap.mpr ⟨e, hfired, by rw [hea, hd]; exact hw⟩
      exact Or.inl (by simp [hin])
    · exact Or.inr ⟨hw, e, he', hea, hed⟩

theorem Armed.isr_due (h : Armed t a d w woken) (hd : t.delays a = some d)
    (hdue : d.deadline ≤ t.clock) : (woken || decide (w ∈ t.isrWakes)) = true := by
  rcases h with rfl | ⟨hw, e, he, hea, hed⟩
  · exact Bool.true_or _
  · rcases isr_cases he with ⟨-, hfired⟩ | ⟨hno, -⟩
    · have hin : w ∈ t.isrWakes := List.mem_filterMap.mpr ⟨e, hfired, by rw [hea, hd]; exact hw⟩
      simp [hin]
    · exact absurd (hed ▸ hdue) hno

theorem Good.isr {o : Option (CurrentPoll W)} {l : LastPoll W} {served : Bool}
    (h : Good t a o l served) :
    Good t.handleTimerIsr a (o.map fun c => { c with woken := c.woken || c.cx ∈ t.isrWakes })
      (l.wakeAll t.isrWakes)
      (served || (t.delays a).any fun d => decide (d.deadline ≤ t.clock)) := by
  obtain ⟨hdelays, hpolls, -⟩ := isr_fields t
  refine ⟨fun f hf hfa => ?_, fun d hd hreg => ?_, fun cx woken ho => ?_, fun w woken hl => ?_,
    fun w woken hl hs => ?_⟩
  · rw [hpolls] at hf
    rw [hdelays]
    obtain ⟨d, woken, hd, ho, hprog⟩ := h.polling f hf hfa
    refine ⟨d, woken || decide (f.cx ∈ t.isrWakes), hd, by rw [ho]; rfl, ?_⟩
    cases hpc : f.pc with
    | check => trivial
    | storeWaker =>
      rw [hpc] at hprog
      exact (LastPoll.isPending_wakeAll _ l).trans hprog
    | schedule =>
      rw [hpc] at hprog
      exact ⟨(LastPoll.isPending_wakeAll _ l).trans hprog.1, hprog.2⟩
    | program =>
      rw [hpc] at hprog
      exact ⟨hprog.1.isr, hprog.2.isr hd⟩
    | mark =>
      rw [hpc] at hprog
      exact ⟨hprog.1.isr, hprog.2.isr hd⟩
  · rw [hdelays] at hd
    exact (h.registered d hd hreg).isr
  · rw [hdelays]
    obtain ⟨⟨cx', before, r⟩, hc, he⟩ := Option.map_eq_some_iff.mp ho
    simp only [CurrentPoll.mk.injEq] at he
    obtain ⟨rfl, rfl, rfl⟩ := he
    obtain ⟨d, hd, harm, hset⟩ := h.decided cx' before hc
    exact ⟨d, hd, harm.isr hd, hset.isr⟩
  · rw [hdelays]
    obtain ⟨before, hl', rfl⟩ := LastPoll.wakeAll_eq_pending hl
    obtain ⟨d, hd, harm, hset⟩ := h.last w before hl'
    exact ⟨d, hd, harm.isr hd, hset.isr⟩
  · obtain ⟨before, hl', rfl⟩ := LastPoll.wakeAll_eq_pending hl
    obtain ⟨d, hd, harm, -⟩ := h.last w before hl'
    rw [hd, Option.any_some, Bool.or_eq_true, decide_eq_true_eq] at hs
    rcases hs with hs | hdue
    · rw [h.wakes w before hl' hs, Bool.true_or]
    · exact harm.isr_due hd hdue

end Good

/-! ### The steps -/

/-- Each delay is as it should be, and has one poll in progress at most. -/
structure Inv (h : DelayWakes N A W) : Prop where
  nodup : (h.timers.polls.map DelayPoll.addr).Nodup
  good : ∀ a, Good h.timers a (h.current a) (h.last a) (h.served a)

theorem Inv.wakesLast {h : DelayWakes N A W} (hi : Inv h) : h.WakesLast :=
  fun a => (hi.good a).wakes

variable [DecidableEq A] [DecidableEq W]

/-- What a step can do: an access, which is noted, or a return. -/
inductive Next (h : DelayWakes N A W) : DelayWakesEvent A W → DelayWakes N A W → Prop
  | access {ev : TimersEvent A W} {t : Timers N A W} : h.Allowed ev = true →
      Timers.Next h.timers ev t → Next h (.access ev) (h.note t ev)
  | ret {a : A} {stack : List A} {cx : W} {woken : Bool} {r : Poll Unit} :
      h.stack = a :: stack → h.current a = some ⟨cx, woken, some r⟩ →
      Next h .ret { h with
        stack
        current := update h.current a none
        last := update h.last a (match r with
          | .ready () => .ready
          | .pending => .pending cx woken)
        served := update h.served a false }

theorem step_next {h h' : DelayWakes N A W} {ev : DelayWakesEvent A W} (hs : step h ev = some h') :
    Next h ev h' := by
  cases ev with
  | access ev =>
    obtain ⟨hal, hs⟩ := Option.ite_none_right_eq_some.mp hs
    obtain ⟨t, ht, rfl⟩ := Option.map_eq_some_iff.mp hs
    exact .access hal (Timers.step_next ht)
  | ret =>
    unfold step at hs
    simp only at hs
    split at hs
    · cases hs
    · rename_i a stack hstack
      split at hs
      · rename_i cx woken r hc
        obtain rfl := Option.some.inj hs
        exact .ret hstack hc
      · cases hs

theorem note_undecided {a : A} {t : Timers N A W} (h : DelayWakes N A W)
    (hd : h.timers.decides = none) :
    h.note t .tick = { h with timers := t, current := update h.current a (h.current a) } := by
  simp [note, hd]

theorem note_decided {a : A} {r : Poll Unit} {t : Timers N A W} (h : DelayWakes N A W)
    {cx : W} {woken : Bool} (hd : h.timers.decides = some (a, r))
    (hc : h.current a = some ⟨cx, woken, none⟩) :
    h.note t .tick =
      { h with timers := t, current := update h.current a (some ⟨cx, woken, some r⟩) } := by
  simp [note, hd, hc]

namespace Inv

variable {h h' : DelayWakes N A W}

omit [DecidableEq A] [DecidableEq W] in
/-- A step that is about the delay at `a` only. -/
theorem at_addr (hi : Inv h) (a : A)
    (hnodup : (h'.timers.polls.map DelayPoll.addr).Nodup)
    (hown : Good h'.timers a (h'.current a) (h'.last a) (h'.served a))
    (hdelays : ∀ b, b ≠ a → h'.timers.delays b = h.timers.delays b)
    (hkept : ∀ b, b ≠ a → h'.current b = h.current b ∧ h'.last b = h.last b ∧
      h'.served b = h.served b)
    (hpolls : ∀ f ∈ h'.timers.polls, f.addr ≠ a → f ∈ h.timers.polls)
    (hqueue : ∀ e ∈ h.timers.queue.entries, e.data ≠ a → e ∈ h'.timers.queue.entries)
    (hclock : h.timers.clock ≤ h'.timers.clock) : Inv h' := by
  refine ⟨hnodup, fun b => ?_⟩
  by_cases hb : b = a
  · rw [hb]
    exact hown
  · obtain ⟨hc, hl, hs⟩ := hkept b hb
    rw [hc, hl, hs]
    exact (hi.good b).frame (hdelays b hb) (fun f hf hfb => hpolls f hf (hfb ▸ hb))
      (fun e he heb => hqueue e he (heb ▸ hb)) hclock

omit [DecidableEq W] in
/-- An access of the innermost poll, whose delay becomes `d'` and which goes on
to `pc`, or is decided: what it must see to for its own delay. -/
theorem tick (hi : Inv h) {f : DelayPoll A W} {fs : List (DelayPoll A W)}
    (hp : h.timers.polls = f :: fs) (d' : TimerDelay W) (pc : Option DelayPc)
    {t : Timers N A W} (hdelays : t.delays = update h.timers.delays f.addr (some d'))
    (hpolls : t.polls = (pc.map fun p => { f with pc := p }).toList ++ fs)
    (hqueue : ∀ e ∈ h.timers.queue.entries, e ∈ t.queue.entries)
    (hclock : t.clock = h.timers.clock) {o : Option (CurrentPoll W)} {b : Bool}
    (hprog : ∀ p ∈ pc, o = some ⟨f.cx, b, none⟩ ∧
      Progress t f.addr d' (h.last f.addr) f.cx b p)
    (hreg : d'.registered = true → Enrolled t f.addr d')
    (hdecided : ∀ cx woken, o = some ⟨cx, woken, some .pending⟩ →
      Armed t f.addr d' cx woken ∧ Settled t d')
    (hlast : ∀ w woken, h.last f.addr = .pending w woken →
      Armed t f.addr d' w woken ∧ Settled t d') :
    Inv { h with timers := t, current := update h.current f.addr o } := by
  have hnd := hi.nodup
  rw [hp, List.map_cons] at hnd
  have hself : t.delays f.addr = some d' := by rw [hdelays, update_self]
  have hmem : ∀ g ∈ t.polls, g ∈ fs ∨ ∃ p ∈ pc, g = { f with pc := p } := by
    intro g hg
    rw [hpolls] at hg
    rcases List.mem_append.mp hg with hg | hg
    · cases pc with
      | none => cases hg
      | some p => exact Or.inr ⟨p, rfl, List.mem_singleton.mp hg⟩
    · exact Or.inl hg
  refine hi.at_addr f.addr ?_ ?_ (fun b hb => ?_) (fun b hb => ⟨update_of_ne hb .., rfl, rfl⟩)
    (fun g hg hgf => ?_) (fun e he _ => hqueue e he) (UInt64.le_of_eq hclock.symm)
  · show (t.polls.map DelayPoll.addr).Nodup
    rw [hpolls]
    cases pc with
    | none => exact (List.nodup_cons.mp hnd).2
    | some p => exact hnd
  · simp only [update_self]
    refine ⟨fun g hg hgf => ?_, fun d₁ hd₁ hr => ?_, fun cx woken ho => ?_, fun w woken hl => ?_,
      (hi.good f.addr).wakes⟩
    · rcases hmem g hg with hg | ⟨p, hpc, rfl⟩
      · exact absurd (List.mem_map.mpr ⟨g, hg, hgf⟩) (List.nodup_cons.mp hnd).1
      · exact ⟨d', b, hself, hprog p hpc⟩
    · obtain rfl : d' = d₁ := Option.some.inj (hself.symm.trans hd₁)
      exact hreg hr
    · exact ⟨d', hself, hdecided cx woken ho⟩
    · exact ⟨d', hself, hlast w woken hl⟩
  · show t.delays b = _
    rw [hdelays, update_of_ne hb]
  · rw [hp]
    rcases hmem g hg with hg | ⟨p, hpc, rfl⟩
    · exact List.mem_cons_of_mem _ hg
    · exact absurd rfl hgf

/-- The next access of the innermost poll. -/
theorem nextTick (hi : Inv h) {t : Timers N A W} (hok : h.RepollOk (.access .tick))
    (hn : Timers.Next h.timers .tick t) : Inv (h.note t .tick) := by
  -- the innermost poll, and what is known of its delay
  have hinner : ∀ {f : DelayPoll A W} {fs : List (DelayPoll A W)} {d : TimerDelay W},
      h.timers.polls = f :: fs → h.timers.delays f.addr = some d → ∃ woken,
        h.current f.addr = some ⟨f.cx, woken, none⟩ ∧
        Progress h.timers f.addr d (h.last f.addr) f.cx woken f.pc := by
    intro f fs d hp hd
    obtain ⟨d', woken, hd', hc, hprog⟩ := (hi.good f.addr).polling f (by simp [hp]) rfl
    obtain rfl := Option.some.inj (hd.symm.trans hd')
    exact ⟨woken, hc, hprog⟩
  have hlast : ∀ {f : DelayPoll A W} {d : TimerDelay W}, h.timers.delays f.addr = some d →
      ∀ w woken, h.last f.addr = .pending w woken →
        Armed h.timers f.addr d w woken ∧ Settled h.timers d := by
    intro f d hd w woken hl
    obtain ⟨d', hd', hl⟩ := (hi.good f.addr).last w woken hl
    obtain rfl := Option.some.inj (hd.symm.trans hd')
    exact hl
  have hsame : ∀ {a : A} {d : TimerDelay W}, h.timers.delays a = some d →
      update h.timers.delays a (some d) = h.timers.delays := fun hd => by
    rw [← hd, Function.update_eq_self]
  cases hn with
  | @expire f fs d hp hd hdue hpc =>
    obtain ⟨woken, hc, -⟩ := hinner hp hd
    rw [note_decided h (r := .ready ()) (by simp [Timers.decides, hp, hd, hpc, hdue]) hc]
    refine hi.tick hp { d with registered := false } none (b := woken) ?_ ?_ ?_ ?_ ?_ ?_ ?_ ?_
    · rfl
    · rfl
    · exact fun _ he => he
    · rfl
    · exact fun p hp => by cases hp
    · exact fun h => by cases h
    · exact fun cx woken' ho => by cases ho
    · exact fun w woken' hl => ⟨(hlast hd w woken' hl).1, Or.inr hdue⟩
  | @skip f fs d hp hd hreg hpc hdue =>
    obtain ⟨woken, hc, -⟩ := hinner hp hd
    have hset : Settled h.timers d := Or.inl hreg
    rw [note_decided h (r := .pending) (by simp [Timers.decides, hp, hd, hpc, hdue, hreg]) hc]
    refine hi.tick hp d none (b := woken) ?_ ?_ ?_ ?_ ?_ ?_ ?_ ?_
    · exact (hsame hd).symm
    · rfl
    · exact fun _ he => he
    · rfl
    · exact fun p hp => by cases hp
    · exact (hi.good f.addr).registered d hd
    · intro cx woken' ho
      obtain ⟨rfl, rfl⟩ : f.cx = cx ∧ woken = woken' := by simpa using ho
      have hwaker : d.waker = some f.cx := hok f (by simp [hp]) hpc d hd hreg hdue
      have hqueued : Queued h.timers f.addr d :=
        ((hi.good f.addr).registered d hd hreg).resolve_right hdue
      exact ⟨Or.inr ⟨hwaker, hqueued⟩, hset⟩
    · exact hlast hd
  | @register f fs d hp hd hdue hreg hpc =>
    obtain ⟨woken, hc, -⟩ := hinner hp hd
    rw [note_undecided (a := f.addr) h (by simp [Timers.decides, hp, hd, hpc, hdue, hreg])]
    refine hi.tick hp d (some .storeWaker) (b := woken) ?_ ?_ ?_ ?_ ?_ ?_ ?_ ?_
    · exact (hsame hd).symm
    · rfl
    · exact fun _ he => he
    · rfl
    · intro p hp'
      obtain rfl := Option.some.inj hp'
      refine ⟨hc, ?_⟩
      -- a delay whose poll has returned `Pending` is registered
      cases hl : h.last f.addr with
      | pending w woken' =>
        rcases (hlast hd w woken' hl).2 with hreg' | hdue'
        · rw [hreg] at hreg'
          cases hreg'
        · exact absurd hdue' hdue
      | _ => rfl
    · exact (hi.good f.addr).registered d hd
    · intro cx woken' ho
      rw [hc] at ho
      cases ho
    · exact hlast hd
  | @storeWaker f fs d hp hd hpc =>
    obtain ⟨woken, hc, hprog⟩ := hinner hp hd
    rw [hpc] at hprog
    have hfresh : (h.last f.addr).isPending = false := hprog
    rw [note_undecided (a := f.addr) h (by simp [Timers.decides, hp, hd, hpc])]
    refine hi.tick hp { d with waker := some f.cx } (some .schedule) (b := woken)
      ?_ ?_ ?_ ?_ ?_ ?_ ?_ ?_
    · rfl
    · rfl
    · exact fun _ he => he
    · rfl
    · intro p hp'
      obtain rfl := Option.some.inj hp'
      exact ⟨hc, hfresh, rfl⟩
    · exact (hi.good f.addr).registered d hd
    · intro cx woken' ho
      rw [hc] at ho
      cases ho
    · intro w woken' hl
      rw [hl] at hfresh
      cases hfresh
  | @schedule f fs d q earliest hp hd hpc happ hmin =>
    obtain ⟨woken, hc, hprog⟩ := hinner hp hd
    rw [hpc] at hprog
    obtain ⟨hfresh, hwaker⟩ := hprog
    have hqueued : ∀ {t : Timers N A W}, t.queue = q → Queued t f.addr d := fun ht =>
      ⟨⟨d.deadline, .wakeTrampoline, f.addr⟩, by rw [ht, happ]; simp, rfl, rfl⟩
    rw [note_undecided (a := f.addr) h (by simp [Timers.decides, hp, hd, hpc])]
    refine hi.tick hp d (some (if earliest then .program else .mark)) (b := woken)
      ?_ ?_ ?_ ?_ ?_ ?_ ?_ ?_
    · exact (hsame hd).symm
    · rfl
    · intro e he
      show e ∈ q.entries
      rw [happ]
      exact List.mem_append_left _ he
    · rfl
    · intro p hp'
      obtain rfl := Option.some.inj hp'
      refine ⟨hc, ?_⟩
      cases earliest with
      | true => exact ⟨Or.inl (hqueued rfl), Or.inr ⟨hwaker, hqueued rfl⟩⟩
      | false => exact ⟨Or.inl (hqueued rfl), Or.inr ⟨hwaker, hqueued rfl⟩⟩
    · exact fun _ => Or.inl (hqueued rfl)
    · intro cx woken' ho
      rw [hc] at ho
      cases ho
    · intro w woken' hl
      rw [hl] at hfresh
      cases hfresh
  | @program f fs d hp hd hpc =>
    obtain ⟨woken, hc, hprog⟩ := hinner hp hd
    rw [hpc] at hprog
    rw [note_undecided (a := f.addr) h (by simp [Timers.decides, hp, hd, hpc])]
    refine hi.tick hp d (some .mark) (b := woken) ?_ ?_ ?_ ?_ ?_ ?_ ?_ ?_
    · exact (hsame hd).symm
    · rfl
    · exact fun _ he => he
    · rfl
    · intro p hp'
      obtain rfl := Option.some.inj hp'
      exact ⟨hc, hprog⟩
    · exact (hi.good f.addr).registered d hd
    · intro cx woken' ho
      rw [hc] at ho
      cases ho
    · exact hlast hd
  | @mark f fs d hp hd hpc =>
    obtain ⟨woken, hc, hprog⟩ := hinner hp hd
    rw [hpc] at hprog
    obtain ⟨henr, harm⟩ := hprog
    rw [note_decided h (r := .pending) (by simp [Timers.decides, hp, hd, hpc]) hc]
    refine hi.tick hp { d with registered := true } none (b := woken) ?_ ?_ ?_ ?_ ?_ ?_ ?_ ?_
    · rfl
    · rfl
    · exact fun _ he => he
    · rfl
    · exact fun p hp => by cases hp
    · exact fun _ => henr
    · intro cx woken' ho
      obtain ⟨rfl, rfl⟩ : f.cx = cx ∧ woken = woken' := by simpa using ho
      exact ⟨harm, Or.inl rfl⟩
    · exact fun w woken' hl => ⟨(hlast hd w woken' hl).1, Or.inl rfl⟩

theorem next {ev : DelayWakesEvent A W} (hi : Inv h) (hok : h.RepollOk ev) (hn : Next h ev h') :
    Inv h' := by
  cases hn with
  | @ret a stack cx woken r hstack hc =>
    refine hi.at_addr a hi.nodup ?_ (fun _ _ => rfl) (fun b hb => ?_) (fun _ hf _ => hf)
      (fun _ he _ => he) (UInt64.le_refl _)
    · simp only [update_self]
      refine ⟨fun f hf hfa => ?_, (hi.good a).registered, fun _ _ ho => (by cases ho),
        fun w woken' hl => ?_, fun _ _ _ hs => by cases hs⟩
      · obtain ⟨_, _, _, ho, _⟩ := (hi.good a).polling f hf hfa
        rw [hc] at ho
        cases ho
      · cases r with
        | ready => cases hl
        | pending =>
          obtain ⟨rfl, rfl⟩ : cx = w ∧ woken = woken' := by simpa using hl
          exact (hi.good a).decided cx woken hc
    · simp only [update_of_ne hb]
      exact ⟨trivial, trivial, trivial⟩
  | @access ev t hal ht =>
    cases ev with
    | tick => exact hi.nextTick hok ht
    | isr =>
      cases ht with
      | isr =>
        refine ⟨?_, fun a => (hi.good a).isr⟩
        show (h.timers.handleTimerIsr.polls.map DelayPoll.addr).Nodup
        rw [(isr_fields h.timers).2.1]
        exact hi.nodup
    | after a deadline =>
      cases ht with
      | after hfree =>
        refine hi.at_addr a hi.nodup ?_ (fun b hb => update_of_ne hb ..)
          (fun b hb => ⟨rfl, update_of_ne hb .., update_of_ne hb ..⟩) (fun _ hf _ => hf)
          (fun _ he _ => he) (UInt64.le_refl _)
        have hgood := hi.good a
        refine ⟨fun f hf hfa => ?_, fun d hd hreg => ?_, fun cx woken ho => ?_,
          fun w woken hl => ?_, fun w woken hl => ?_⟩
        · obtain ⟨d, _, hd, _⟩ := hgood.polling f hf hfa
          rw [hfree] at hd
          cases hd
        · have hd' : update h.timers.delays a (some ⟨deadline, false, none⟩) a = some d := hd
          rw [update_self] at hd'
          rw [← Option.some.inj hd'] at hreg
          cases hreg
        · obtain ⟨d, hd, -⟩ := hgood.decided cx woken ho
          rw [hfree] at hd
          cases hd
        · simp [note] at hl
        · simp [note] at hl
    | advance now =>
      cases ht with
      | advance hle =>
        exact ⟨hi.nodup, fun a => (hi.good a).frame rfl (fun _ hf _ => hf) (fun _ he _ => he) hle⟩
    | poll a w =>
      cases ht with
      | poll hlive hfree =>
        have hgood := hi.good a
        refine hi.at_addr a (List.nodup_cons.mpr ⟨hfree, hi.nodup⟩) ?_ (fun _ _ => rfl)
          (fun b hb => ⟨update_of_ne hb .., rfl, rfl⟩) (fun f hf hfa => ?_) (fun _ he _ => he)
          (UInt64.le_refl _)
        · refine ⟨fun f hf hfa => ?_, hgood.registered, fun cx woken ho => ?_, hgood.last,
            hgood.wakes⟩
          · rcases List.mem_cons.mp hf with rfl | hf
            · obtain ⟨d, hd⟩ := Option.isSome_iff_exists.mp hlive
              exact ⟨d, false, hd, update_self .., trivial⟩
            · exact absurd (List.mem_map.mpr ⟨f, hf, hfa⟩) hfree
          · simp [note] at ho
        · rcases List.mem_cons.mp hf with rfl | hf
          · exact absurd rfl hfa
          · exact hf
    | drop a =>
      cases ht with
      | @drop _ d hd hfree =>
        have hc : h.current a = none := by simpa [Allowed] using hal
        refine hi.at_addr a hi.nodup ?_ (fun b hb => update_of_ne hb ..)
          (fun b hb => ⟨rfl, update_of_ne hb .., update_of_ne hb ..⟩) (fun _ hf _ => hf)
          (fun e he hea => ?_) (UInt64.le_refl _)
        · refine ⟨fun f hf hfa => ?_, fun d' hd' => ?_, fun cx woken ho => ?_,
            fun w woken hl => ?_, fun w woken hl => ?_⟩
          · exact absurd (List.mem_map.mpr ⟨f, hf, hfa⟩) hfree
          · simp [note] at hd'
          · simp [note, hc] at ho
          · simp [note] at hl
          · simp [note] at hl
        · -- `cancel` removes an entry of the delay that goes
          show e ∈ (if d.registered then (h.timers.queue.cancel a).1 else h.timers.queue).entries
          cases d.registered with
          | false => exact he
          | true =>
            rcases h.timers.queue.cancel_cases a with ⟨-, e', he', -, hperm⟩ | ⟨hcancel, -⟩
            · rcases List.mem_cons.mp (hperm.mem_iff.mp he) with rfl | hin
              · exact absurd he' hea
              · exact hin
            · rw [hcancel]
              exact he

end Inv

omit [DecidableEq A] [DecidableEq W] in
theorem inv_init : (init : DelayWakes N A W).Inv where
  nodup := List.nodup_nil
  good _ := {
    polling := fun _ hf => by cases hf
    registered := fun _ hd => by cases hd
    decided := fun _ _ ho => by cases ho
    last := fun _ _ hl => by cases hl
    wakes := fun _ _ hl => by cases hl }

/-- The handler finds a deadline passed and does not wake who polled last. -/
theorem isr_loses {h : DelayWakes N A W} {a : A} {w : W} {d : TimerDelay W}
    (hl : h.last a = .pending w false) (hd : h.timers.delays a = some d)
    (hdue : d.deadline ≤ h.timers.clock) (hno : w ∉ h.timers.isrWakes) :
    ∃ h', step h (.access .isr) = some h' ∧ ¬h'.WakesLast := by
  refine ⟨h.note h.timers.handleTimerIsr .isr, rfl, fun hlast => ?_⟩
  have hwoken := hlast a w false (by simp [note, hl, LastPoll.wakeAll, hno])
    (by simp [note, hd, hdue])
  cases hwoken

/-- A poll that finds its delay registered and not due, and has not been woken
itself, is lost when no delay holds its waker: it returns `Pending`, and the
handler that finds the deadline passed does not wake it. -/
theorem lost {h : DelayWakes N A W} {f : DelayPoll A W} {fs : List (DelayPoll A W)}
    {stack : List A} {d : TimerDelay W} (hp : h.timers.polls = f :: fs)
    (hstack : h.stack = f.addr :: stack) (hc : h.current f.addr = some ⟨f.cx, false, none⟩)
    (hd : h.timers.delays f.addr = some d) (hpc : f.pc = .check) (hreg : d.registered = true)
    (hdue : ¬d.deadline ≤ h.timers.clock)
    (hother : ∀ b d', h.timers.delays b = some d' → d'.waker ≠ some f.cx) :
    ∃ h', exec step h [.access .tick, .ret, .access (.advance d.deadline), .access .isr] = some h' ∧
      ¬h'.WakesLast := by
  let t : Timers N A W := { h.timers with polls := fs }
  have htick : step h (.access .tick) = some { h with
      timers := t, current := update h.current f.addr (some ⟨f.cx, false, some .pending⟩) } := by
    have hstep : h.timers.step .tick = some t := by
      simp [Timers.step, hp, hd, Timers.tickStep, hpc, hdue, hreg, t]
    have hal : h.Allowed .tick = true := by simp [Allowed, hstack, hp]
    show (if h.Allowed .tick then (h.timers.step .tick).map fun t => h.note t .tick else none) = _
    rw [if_pos hal, hstep, Option.map_some,
      note_decided h (r := .pending) (by simp [Timers.decides, hp, hd, hpc, hdue, hreg]) hc]
  have hret : step { h with
      timers := t, current := update h.current f.addr (some ⟨f.cx, false, some .pending⟩) } .ret =
      some { h with
        timers := t
        stack
        current := update (update h.current f.addr (some ⟨f.cx, false, some .pending⟩)) f.addr none
        last := update h.last f.addr (.pending f.cx false)
        served := update h.served f.addr false } := by
    simp [step, hstack]
  have hle : t.clock ≤ d.deadline := (UInt64.le_total _ _).resolve_right hdue
  have hadvance : ∀ h₁ : DelayWakes N A W, h₁.timers = t →
      step h₁ (.access (.advance d.deadline)) =
        some { h₁ with timers := { t with clock := d.deadline } } := by
    intro h₁ ht
    simp [step, Allowed, Timers.step, ht, hle, note]
  let t' : Timers N A W := { t with clock := d.deadline }
  have hunwoken : f.cx ∉ t'.isrWakes := by
    intro hin
    obtain ⟨e, -, he⟩ := List.mem_filterMap.mp hin
    obtain ⟨d', hd', hw⟩ := Option.bind_eq_some_iff.mp he
    exact hother e.data d' hd' hw
  rw [Transition.exec_cons, htick, Option.bind_some, Transition.exec_cons, hret, Option.bind_some,
    Transition.exec_cons, hadvance _ rfl, Option.bind_some]
  obtain ⟨h', hisr, hno⟩ := isr_loses (h := ⟨t', stack, _, update h.last f.addr
    (.pending f.cx false), update h.served f.addr false⟩) (update_self ..) hd (UInt64.le_refl _) hunwoken
  exact ⟨h', by rw [Transition.exec_cons, hisr]; rfl, hno⟩

/-- **An expired delay wakes whoever polled it last**, in every state of every
run whose polls of a registered delay that is not due are given the waker that
the delay has stored. A run that ends before such a poll, given a waker that
no delay has stored and that has not been woken since the poll began, goes on
to a state where the delay has expired and this waker has not been woken. -/
theorem wakes_last (es : List (DelayWakesEvent A W)) :
    (Along step RepollOk (init : DelayWakes N A W) es →
      Always step WakesLast (init : DelayWakes N A W) es) ∧
    ∀ (h : DelayWakes N A W) (f : DelayPoll A W) (d : TimerDelay W), exec step init es = some h →
      h.timers.polls.head? = some f → h.stack.head? = some f.addr →
      h.current f.addr = some ⟨f.cx, false, none⟩ → h.timers.delays f.addr = some d →
      f.pc = .check → d.registered = true → ¬d.deadline ≤ h.timers.clock →
      (∀ b d', h.timers.delays b = some d' → d'.waker ≠ some f.cx) →
      ¬Always step WakesLast (init : DelayWakes N A W)
        (es ++ [.access .tick, .ret, .access (.advance d.deadline), .access .isr]) := by
  refine ⟨?_, fun h f d hexec hf hs hc hd hpc hreg hdue hother halways => ?_⟩
  · exact always_of_along (fun h hi => Inv.wakesLast hi)
      (fun h ev h' hi hok hs => hi.next hok (step_next hs)) inv_init
  · obtain ⟨fs, hp⟩ := List.head?_eq_some_iff.mp hf
    obtain ⟨stack, hstack⟩ := List.head?_eq_some_iff.mp hs
    obtain ⟨h', hexec', hno⟩ := lost hp hstack hc hd hpc hreg hdue hother
    refine hno (halways.of_exec ?_)
    rw [Transition.exec_append, hexec]
    exact hexec'

instance (h : DelayWakes N A W) : ∀ ev : DelayWakesEvent A W, Decidable (h.RepollOk ev)
  | .access .tick => inferInstanceAs (Decidable (∀ f ∈ h.timers.polls.head?, f.pc = .check →
      ∀ d ∈ h.timers.delays f.addr, d.registered = true → ¬d.deadline ≤ h.timers.clock →
        d.waker = some f.cx))
  | .access (.after _ _) => isTrue trivial
  | .access (.advance _) => isTrue trivial
  | .access (.poll _ _) => isTrue trivial
  | .access (.drop _) => isTrue trivial
  | .access .isr => isTrue trivial
  | .ret => isTrue trivial

/-- A delay that is polled twice with the waker 1, before its deadline and
before the interrupt. -/
theorem wakes_last_reused : Always step WakesLast (init : DelayWakes 16 ℕ ℕ)
    [.access (.after 0 5), .access (.poll 0 1), .access .tick, .access .tick, .access .tick,
      .access .tick, .access .tick, .ret, .access (.poll 0 1), .access .tick, .ret,
      .access (.advance 7), .access .isr] :=
  (wakes_last _).1 (by decide +kernel)

/-- The delay at 0 is polled with the waker 0 and then with the waker 1, before
its deadline, and the interrupt comes after it. -/
def handedOver : List (DelayWakesEvent ℕ ℕ) :=
  [.access (.after 0 5), .access (.poll 0 0), .access .tick, .access .tick, .access .tick,
    .access .tick, .access .tick, .ret, .access (.poll 0 1), .access .tick, .ret,
    .access (.advance 7), .access .isr]

/-- After `handedOver` the waker 1 has not been woken. -/
theorem stale_waker : ¬Always step WakesLast (init : DelayWakes 16 ℕ ℕ) handedOver := by
  intro halways
  have hobs : ((exec step (init : DelayWakes 16 ℕ ℕ) handedOver).map fun h =>
      (h.last 0, h.served 0)) = some (.pending 1 false, true) := by decide +kernel
  obtain ⟨h, hexec, hobs⟩ := Option.map_eq_some_iff.mp hobs
  obtain ⟨hl, hs⟩ := Prod.mk.inj hobs
  have hwoken := halways.of_exec hexec 0 1 false hl hs
  cases hwoken

end DelayWakes
end RtAsync

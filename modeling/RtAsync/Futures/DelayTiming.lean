/-
# When a delay completes

`after` of `futures/src/timer.rs` turns a duration in nanoseconds into ticks of
the timer, rounding down and cutting to 64 bits, and adds them to the clock. A
poll returns `Ready` when the clock has reached the sum, and
`TimedDelays.not_early_iff` says for which durations that is never too soon.

Key definitions: `TimerDelay.after`, `TimedDelays`, `TimedDelays.step`,
`TimedDelays.NotEarly`, `TimedDelays.OnTime`.
Key theorems: `TimedDelays.deadline_next`, `TimedDelays.Started.next`,
`TimedDelays.not_early_iff`, `TimedDelays.early_nanosecond`.
-/
import RtAsync.Futures.DelayWakes
import RtAsync.Lib.Word64

namespace RtAsync

open Function (update update_self update_of_ne)
open Transition (Reach reach_of_exec exec)
open Word64 (saturatingAdd scaled toNat_saturatingAdd toNat_scaled scaled_mul_le scaled_mul_eq_iff)

variable {N : ℕ} {A W : Type}

/-! ### The source -/

namespace TimerDelay

/-- `(duration.as_ticks() as u128 * hw_freq / 1_000_000_000) as u64`. -/
def ticks (duration : UInt64) (freqHz : UInt32) : UInt64 :=
  scaled (duration.toNat * freqHz.toNat) 1000000000

/-- `after`, where the clock reads `now`. -/
def after (duration : UInt64) (freqHz : UInt32) (now : UInt64) : TimerDelay W :=
  ⟨saturatingAdd now (ticks duration freqHz), false, none⟩

/-- The product fits into the `u128` that it is computed in. -/
theorem product_lt (duration : UInt64) (freqHz : UInt32) :
    duration.toNat * freqHz.toNat < 2 ^ 128 := by
  have hd := duration.toNat_lt
  have hf := freqHz.toNat_lt
  calc duration.toNat * freqHz.toNat ≤ 2 ^ 64 * 2 ^ 32 := Nat.mul_le_mul hd.le hf.le
    _ < 2 ^ 128 := by decide

end TimerDelay

/-! ### The history -/

/-- The delays, and the duration and the clock that each was made with. -/
structure TimedDelays (N : ℕ) (A W : Type) where
  timers : Timers N A W
  started : A → Option (UInt64 × UInt64)

/-- `after a duration` makes a delay at the free address `a`. -/
inductive TimedEvent (A W : Type)
  | after (a : A) (duration : UInt64)
  | other (ev : TimersEvent A W)

namespace TimedDelays

def init : TimedDelays N A W := ⟨.init, fun _ => none⟩

section Step

variable [DecidableEq A]

/-- With a timer of `freqHz`. -/
def step (freqHz : UInt32) (r : TimedDelays N A W) : TimedEvent A W → Option (TimedDelays N A W)
  | .after a duration =>
    let delay : TimerDelay W := .after duration freqHz r.timers.clock
    (r.timers.step (.after a delay.deadline)).map fun t =>
      ⟨t, update r.started a (some (duration, r.timers.clock))⟩
  | .other (.after _ _) => none
  | .other (.drop a) => (r.timers.step (.drop a)).map fun t => ⟨t, update r.started a none⟩
  | .other ev => (r.timers.step ev).map fun t => ⟨t, r.started⟩

end Step

/-- A poll that returns `Ready` next, of a delay of `duration` that was made at
the clock `s`, reads a clock that is `duration` later at least, unless the
deadline was cut at the largest clock. -/
def NotEarly (freqHz : UInt32) (duration s : UInt64) (r : TimedDelays N A W) : Prop :=
  ∀ a, r.timers.decides = some (a, .ready ()) → r.started a = some (duration, s) →
    duration.toNat * freqHz.toNat ≤ (r.timers.clock.toNat - s.toNat) * 1000000000 ∨
      2 ^ 64 ≤ s.toNat + (TimerDelay.ticks duration freqHz).toNat

/-- The duration is a whole number of ticks, which 64 bits hold; or the
deadline is cut. -/
def OnTime (freqHz : UInt32) (duration s : UInt64) : Prop :=
  (1000000000 ∣ duration.toNat * freqHz.toNat ∧
    duration.toNat * freqHz.toNat / 1000000000 < 2 ^ 64) ∨
  2 ^ 64 ≤ s.toNat + (TimerDelay.ticks duration freqHz).toNat

/-! ### The deadline -/

theorem decides_ready {t : Timers N A W} {a : A} (h : t.decides = some (a, .ready ())) :
    ∃ d, t.delays a = some d ∧ d.deadline ≤ t.clock := by
  unfold Timers.decides at h
  split at h
  · cases h
  · rename_i f fs hp
    obtain ⟨d, hd, h⟩ := Option.bind_eq_some_iff.mp h
    split at h
    · split at h
      · rename_i hdue
        obtain ⟨rfl, -⟩ := Prod.mk.inj (Option.some.inj h)
        exact ⟨d, hd, hdue⟩
      · split at h
        · cases h
        · cases h
    · cases h
    · cases h

variable [DecidableEq A]

theorem deadline_update {delays : A → Option (TimerDelay W)} {a b : A} {d e e' : TimerDelay W}
    (hd : delays a = some d) (he : delays b = some e) (heq : e'.deadline = e.deadline) :
    ∃ d', update delays b (some e') a = some d' ∧ d'.deadline = d.deadline := by
  by_cases hab : a = b
  · subst hab
    obtain rfl := Option.some.inj (hd.symm.trans he)
    exact ⟨e', update_self .., heq⟩
  · exact ⟨d, by rw [update_of_ne hab, hd], rfl⟩

/-- A delay keeps its deadline until it is dropped. -/
theorem deadline_next {t t' : Timers N A W} {ev : TimersEvent A W} (h : Timers.Next t ev t')
    {a : A} {d : TimerDelay W} (hd : t.delays a = some d) (hdrop : ev ≠ .drop a) :
    ∃ d', t'.delays a = some d' ∧ d'.deadline = d.deadline := by
  cases h with
  | @after b deadline hfree =>
    have hab : a ≠ b := by
      rintro rfl
      rw [hfree] at hd
      cases hd
    exact ⟨d, (update_of_ne hab ..).trans hd, rfl⟩
  | expire _ he => exact deadline_update hd he rfl
  | storeWaker _ he => exact deadline_update hd he rfl
  | mark _ he => exact deadline_update hd he rfl
  | @drop b =>
    have hab : a ≠ b := by
      rintro rfl
      exact hdrop rfl
    exact ⟨d, (update_of_ne hab ..).trans hd, rfl⟩
  | isr => exact ⟨d, by rw [(DelayWakes.isr_fields t).1, hd], rfl⟩
  | _ => exact ⟨d, hd, rfl⟩

theorem clock_next {t t' : Timers N A W} {ev : TimersEvent A W} (h : Timers.Next t ev t') :
    t.clock ≤ t'.clock := by
  cases h with
  | advance hle => exact hle
  | isr => exact UInt64.le_of_eq (DelayWakes.isr_fields t).2.2.symm
  | _ => exact UInt64.le_refl _

omit [DecidableEq A] in
/-- A delay was made in the past, and has the deadline it was made with. -/
def Started (freqHz : UInt32) (r : TimedDelays N A W) : Prop :=
  ∀ a duration s, r.started a = some (duration, s) → s ≤ r.timers.clock ∧
    ∃ d, r.timers.delays a = some d ∧
      d.deadline = saturatingAdd s (TimerDelay.ticks duration freqHz)

theorem Started.keep {freqHz : UInt32} {r : TimedDelays N A W} (h : r.Started freqHz)
    {t : Timers N A W} {ev : TimersEvent A W} (hn : Timers.Next r.timers ev t)
    (hdrop : ∀ a, ev ≠ .drop a) : Started freqHz ⟨t, r.started⟩ := by
  intro a duration s hs
  obtain ⟨hle, d, hd, hdl⟩ := h a duration s hs
  obtain ⟨d', hd', hdl'⟩ := deadline_next hn hd (hdrop a)
  exact ⟨UInt64.le_trans hle (clock_next hn), d', hd', hdl'.trans hdl⟩

theorem Started.next {freqHz : UInt32} {r r' : TimedDelays N A W} {ev : TimedEvent A W}
    (h : r.Started freqHz) (hs : step freqHz r ev = some r') : r'.Started freqHz := by
  cases ev with
  | after a duration =>
    obtain ⟨t, ht, rfl⟩ := Option.map_eq_some_iff.mp hs
    have hn := Timers.step_next ht
    intro b duration' s hb
    by_cases hab : b = a
    · subst hab
      have hb' : update r.started b (some (duration, r.timers.clock)) b = some (duration', s) := hb
      rw [update_self, Option.some.injEq, Prod.mk.injEq] at hb'
      obtain ⟨rfl, rfl⟩ := hb'
      refine ⟨clock_next hn, ?_⟩
      cases hn with
      | after => exact ⟨_, update_self .., rfl⟩
    · have hb' : update r.started a (some (duration, r.timers.clock)) b = some (duration', s) := hb
      rw [update_of_ne hab] at hb'
      exact h.keep hn (fun c hc => by cases hc) b duration' s hb'
  | other ev =>
    cases ev with
    | after => cases hs
    | drop a =>
      obtain ⟨t, ht, rfl⟩ := Option.map_eq_some_iff.mp hs
      have hn := Timers.step_next ht
      intro b duration s hb
      have hb' : update r.started a none b = some (duration, s) := hb
      have hab : b ≠ a := by
        rintro rfl
        rw [update_self] at hb'
        cases hb'
      rw [update_of_ne hab] at hb'
      obtain ⟨hle, d, hd, hdl⟩ := h b duration s hb'
      obtain ⟨d', hd', hdl'⟩ := deadline_next hn hd fun he => hab (by cases he; rfl)
      exact ⟨UInt64.le_trans hle (clock_next hn), d', hd', hdl'.trans hdl⟩
    | advance =>
      obtain ⟨t, ht, rfl⟩ := Option.map_eq_some_iff.mp hs
      exact h.keep (Timers.step_next ht) fun a he => by cases he
    | poll =>
      obtain ⟨t, ht, rfl⟩ := Option.map_eq_some_iff.mp hs
      exact h.keep (Timers.step_next ht) fun a he => by cases he
    | tick =>
      obtain ⟨t, ht, rfl⟩ := Option.map_eq_some_iff.mp hs
      exact h.keep (Timers.step_next ht) fun a he => by cases he
    | isr =>
      obtain rfl := Option.some.inj hs
      exact h.keep .isr fun a he => by cases he

theorem started_of_reach {freqHz : UInt32} {r : TimedDelays N A W}
    (h : Reach (step freqHz) init r) : r.Started freqHz :=
  h.invariant (fun _ _ _ hi hs => hi.next hs) fun _ _ _ hs => by cases hs

/-! ### Never too soon -/

omit [DecidableEq A] in
/-- A delay that is on time completes when the duration has passed. -/
theorem notEarly {freqHz : UInt32} {duration s : UInt64} {r : TimedDelays N A W}
    (hr : r.Started freqHz) (h : OnTime freqHz duration s) : r.NotEarly freqHz duration s := by
  intro a hready ha
  rcases h with hexact | hcut
  · obtain ⟨d, hd, hdue⟩ := decides_ready hready
    obtain ⟨hle, d', hd', hdl⟩ := hr a duration s ha
    obtain rfl := Option.some.inj (hd.symm.trans hd')
    have hticks := (scaled_mul_eq_iff (by decide)).mpr hexact
    have hdue' := UInt64.le_iff_toNat_le.mp hdue
    rw [hdl, toNat_saturatingAdd] at hdue'
    by_cases hcut : 2 ^ 64 ≤ s.toNat + (TimerDelay.ticks duration freqHz).toNat
    · exact Or.inr hcut
    · left
      rw [← hticks]
      refine Nat.mul_le_mul_right _ ?_
      show (TimerDelay.ticks duration freqHz).toNat ≤ _
      omega
  · exact Or.inr hcut

/-- A run to a poll that completes the delay as soon as its deadline has come. -/
def soonest (a : A) (w : W) (freqHz : UInt32) (duration s : UInt64) : List (TimedEvent A W) :=
  [.other (.advance s), .after a duration,
    .other (.advance (saturatingAdd s (TimerDelay.ticks duration freqHz))), .other (.poll a w)]

theorem exec_soonest (a : A) (w : W) (freqHz : UInt32) (duration s : UInt64) :
    ∃ r : TimedDelays N A W, exec (step freqHz) init (soonest a w freqHz duration s) = some r ∧
      r.timers.clock = saturatingAdd s (TimerDelay.ticks duration freqHz) ∧
      r.timers.decides = some (a, .ready ()) ∧ r.started a = some (duration, s) := by
  have hstart : (0 : UInt64) ≤ s := UInt64.le_iff_toNat_le.mpr (Nat.zero_le _)
  have hlater : s ≤ saturatingAdd s (TimerDelay.ticks duration freqHz) :=
    UInt64.le_iff_toNat_le.mpr (Word64.le_saturatingAdd _ _)
  let d : TimerDelay W := .after duration freqHz s
  let t : Timers N A W :=
    { Timers.setDelay { Timers.init with clock := s } a d with
      clock := d.deadline, polls := [⟨a, w, .check⟩] }
  refine ⟨⟨t, update (fun _ => none) a (some (duration, s))⟩, ?_, rfl, ?_, by simp⟩
  · simp [exec, soonest, step, init, Timers.step, Timers.init, Timers.setDelay, hstart, hlater,
      TimerDelay.after, t, d]
  · simp [Timers.decides, t, Timers.setDelay]

/-- If that poll is not too soon, nothing is rounded and nothing is cut. -/
theorem onTime_of_soonest [Inhabited A] [Inhabited W] {freqHz : UInt32} {duration s : UInt64}
    (h : ∀ r : TimedDelays N A W, Reach (step freqHz) init r → r.NotEarly freqHz duration s) :
    OnTime freqHz duration s := by
  obtain ⟨r, hexec, hclock, hready, hstarted⟩ :=
    exec_soonest (N := N) (default : A) (default : W) freqHz duration s
  by_cases hcut : 2 ^ 64 ≤ s.toNat + (TimerDelay.ticks duration freqHz).toNat
  · exact Or.inr hcut
  · have hlate := (h r (reach_of_exec _ hexec) default hready hstarted).resolve_right hcut
    refine Or.inl ((scaled_mul_eq_iff (by decide)).mp (Nat.le_antisymm (scaled_mul_le _ _) ?_))
    rw [hclock, toNat_saturatingAdd] at hlate
    refine hlate.trans (Nat.mul_le_mul_right _ ?_)
    show _ ≤ (TimerDelay.ticks duration freqHz).toNat
    omega

/-- **When a delay never completes early.** For a timer of `freqHz` and a delay
of `duration` nanoseconds that is made when the clock reads `s`: in every run,
whatever the clock, every poll of such a delay that returns `Ready` reads a
clock `n` with `duration * freqHz ≤ (n - s) * 10 ^ 9`, or the deadline was cut
at the largest clock, exactly when `duration * freqHz` is a multiple of
`10 ^ 9` whose quotient fits into 64 bits, or the deadline was cut. -/
theorem not_early_iff [Inhabited A] [Inhabited W] (freqHz : UInt32) (duration s : UInt64) :
    (∀ r : TimedDelays N A W, Reach (step freqHz) init r → r.NotEarly freqHz duration s) ↔
      OnTime freqHz duration s :=
  ⟨onTime_of_soonest, fun h _ hr => notEarly (started_of_reach hr) h⟩

/-- One nanosecond of a timer of 10 MHz is no tick, so that the delay is over as
soon as it has begun. -/
theorem early_nanosecond : ¬∀ (freqHz : UInt32) (duration s : UInt64)
    (r : TimedDelays 16 Unit Unit), Reach (step freqHz) init r → r.NotEarly freqHz duration s := by
  intro h
  have htime : OnTime 10000000 1 0 := onTime_of_soonest (h 10000000 1 0)
  rcases htime with ⟨hdvd, -⟩ | hcut
  · exact absurd hdvd (by decide)
  · exact absurd hcut (by decide)

end TimedDelays
end RtAsync

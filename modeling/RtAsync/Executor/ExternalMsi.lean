/-
# The software interrupt of another hart

The generated `MachineSoft` calls `__Inner_MachineSoft` first and `clear_pend`
after it. `Msi` is the hart with the call of the hook as a step of its own,
and with a flag beside it: has another hart raised the interrupt since the
hook was last called. `clear_pend` writes the one bit that stands for the
scheduler's interrupt and for the other hart's alike, so what was raised
between the call of the hook and the clear is gone.

Key definitions: `Msi`, `Msi.step`, `Msi.NotAbsorbed`, `Msi.ClearOk`,
`Msi.WindowOk`.
Key theorems: `Next.msip`, `Msi.step_next`, `Msi.reachable_kernel`,
`Msi.NotAbsorbed.serviced`, `Msi.clearOk_of_windowOk`, `Msi.not_absorbed_iff`.
-/
import RtAsync.Executor.Pend

namespace RtAsync

open Transition (Always Along Reach exec always_iff_along along_of_along)

variable {N : ℕ} {T V : Type}

namespace Event

/-- Another hart raises the software interrupt. -/
def isExternal : Event T V → Bool
  | external => true
  | _ => false

/-- The software interrupt is taken. -/
def isTrapSoft : Event T V → Bool
  | trapSoft => true
  | _ => false

end Event

/-- The hart, and whether the `MachineSoft` on top has yet to call
`__Inner_MachineSoft`, and whether another hart has raised the interrupt after
the start of the latest such call. -/
structure Msi (N : ℕ) (T V : Type) where
  kernel : Kernel N T V
  entering : Bool
  raised : Bool

variable [DecidableEq T]

/-! ### The pending bit -/

/-- A call never takes the pending bit back. -/
theorem callStep_msip {s s' : Shared N T V} {c : Call N T} {c' : Option (Call N T)}
    (h : callStep s c = some (s', c')) (hp : s.msip = true) : s'.msip = true := by
  cases callStep_next h with
  | pendSend => rfl
  | spawnPend => rfl
  | _ => exact hp

/-- The clear of `clear_pend` is the one access that takes the bit back. -/
theorem Next.msip {s s' : Shared N T V} {f : Frame N T V} {ev : Event T V}
    {gs : List (Frame N T V)} (h : Next s f ev s' gs) (hp : s.msip = true) :
    s'.msip = true ∨ (ev = .tick ∧ ∃ sys, f = .clear sys) := by
  cases h with
  | call hu hc => exact Or.inl (callStep_msip hc hp)
  | begin hu hc =>
    obtain ⟨⟨tk, rfl⟩, -⟩ := callStart_shared hc
    exact Or.inl hp
  | external => exact Or.inl rfl
  | clear sys => exact Or.inr ⟨rfl, sys, rfl⟩
  | notify hn =>
    rcases notifyLocked_pend hn with ⟨hm, -⟩ | ⟨-, hm, -⟩
    · exact Or.inl hm
    · exact Or.inl (hm.trans hp)
  | _ => exact Or.inl hp

/-- A `MachineSoft` up to the clear. -/
def Frame.acknowledging : Frame N T V → Bool
  | hook _ => true
  | swap => true
  | clear _ => true
  | _ => false

omit [DecidableEq T] in
theorem Frame.setCall_acknowledging (f : Frame N T V) (c : Option (Call N T)) :
    (f.setCall c).acknowledging = f.acknowledging := by
  unfold setCall
  split <;> rfl

omit [DecidableEq T] in
theorem Frame.not_acknowledging {f : Frame N T V} (h : f.interruptible = true) :
    f.acknowledging = false := by
  cases f with
  | hook c => cases h
  | swap => cases h
  | clear sys => cases h
  | _ => rfl

/-- An activation that acknowledges was entered by the trap. -/
theorem Next.acknowledging {s s' : Shared N T V} {f : Frame N T V} {ev : Event T V}
    {gs : List (Frame N T V)} (h : Next s f ev s' gs) (htrap : ev ≠ .trapSoft) :
    gs = [] ∨ ∃ g gs', gs = g :: gs' ∧ (g.acknowledging = true → f.acknowledging = true) := by
  cases h with
  | call hu hc => exact Or.inr ⟨_, _, rfl, by rw [Frame.setCall_acknowledging]; exact id⟩
  | begin hu hc => exact Or.inr ⟨_, _, rfl, by rw [Frame.setCall_acknowledging]; exact id⟩
  | trapSoft => exact absurd rfl htrap
  | isrRet => exact Or.inl rfl
  | mret => exact Or.inl rfl
  | trapIsr => exact Or.inr ⟨_, _, rfl, fun h => by cases h⟩
  | setMie => exact Or.inr ⟨_, _, rfl, id⟩
  | external => exact Or.inr ⟨_, _, rfl, id⟩
  | clear sys => exact Or.inr ⟨_, _, rfl, fun _ => rfl⟩
  | hookRet => exact Or.inr ⟨_, _, rfl, fun _ => rfl⟩
  | swap => exact Or.inr ⟨_, _, rfl, fun _ => rfl⟩
  | _ => exact Or.inr ⟨_, _, rfl, fun h => by cases h⟩

namespace Msi

def init : Msi N T V := ⟨.init, false, false⟩

/-- Between the trap and the call of the hook the hart does nothing else; the
other hart may do anything at any time. -/
def step (m : Msi N T V) (ev : Event T V) : Option (Msi N T V) :=
  if m.entering && !ev.isExternal then
    match ev with
    | .tick => some { m with entering := false, raised := false }
    | _ => none
  else
    (m.kernel.step ev).map fun k =>
      ⟨k, m.entering || ev.isTrapSoft, m.raised || ev.isExternal⟩

/-- What was raised after the latest call of the hook is still pending, or a
`MachineSoft` is about to call the hook again. -/
def NotAbsorbed (m : Msi N T V) : Prop :=
  m.raised = true → m.kernel.shared.msip = true ∨ m.entering = true

/-- The clear of `clear_pend` finds nothing raised since the hook was called. -/
def ClearOk (m : Msi N T V) (ev : Event T V) : Prop :=
  ev = .tick → (∃ sys, m.kernel.frames.head? = some (.clear sys)) → m.raised = false

/-- One step: the call of the hook, or a step of the hart. -/
inductive Next (m : Msi N T V) : Event T V → Msi N T V → Prop
  | hook : m.entering = true → Next m .tick { m with entering := false, raised := false }
  | hart {ev : Event T V} {k : Kernel N T V} : (m.entering = true → ev = .external) →
      m.kernel.step ev = some k →
      Next m ev ⟨k, m.entering || ev.isTrapSoft, m.raised || ev.isExternal⟩

theorem step_next {m m' : Msi N T V} {ev : Event T V} (h : step m ev = some m') :
    Next m ev m' := by
  unfold step at h
  by_cases he : (m.entering && !ev.isExternal) = true
  · rw [if_pos he] at h
    rw [Bool.and_eq_true] at he
    cases ev with
    | tick =>
      obtain rfl := Option.some.inj h
      exact .hook he.1
    | _ => cases h
  · rw [if_neg he] at h
    obtain ⟨k, hk, rfl⟩ := Option.map_eq_some_iff.mp h
    refine .hart (fun hent => ?_) hk
    cases ev with
    | external => rfl
    | _ => exact absurd (by rw [hent]; rfl) he

/-- The hart of a run goes through states of the executor. -/
theorem reachable_kernel {m : Msi N T V} (h : Reach step init m) : m.kernel.Reachable := by
  refine h.invariant (I := fun m => m.kernel.Reachable) (fun m ev m' hr hs => ?_) (.refl _)
  cases step_next hs with
  | hook => exact hr
  | hart _ hk => exact hr.tail trivial hk

/-! ### What was raised is not absorbed -/

/-- An entering `MachineSoft` is the innermost activation, before its hook. -/
def Entered (m : Msi N T V) : Prop :=
  m.entering = true → m.kernel.frames.head? = some (.hook none)

theorem Entered.next {m m' : Msi N T V} {ev : Event T V} (hm : m.Entered) (h : Next m ev m') :
    m'.Entered := by
  cases h with
  | hook => exact fun h => by cases h
  | @hart ev k hext hk =>
    obtain ⟨f, fs, s', gs, hf, rfl, hnext⟩ := Kernel.step_next hk
    intro h
    rcases Bool.or_eq_true_iff.mp h with hent | htrap
    · obtain rfl := hext hent
      have hhead := hm hent
      rw [hf] at hhead
      cases hnext with
      | external => exact hhead
    · cases hnext with
      | trapSoft => rfl
      | _ => cases htrap

theorem NotAbsorbed.next {m m' : Msi N T V} {ev : Event T V} (hm : m.NotAbsorbed)
    (hok : m.ClearOk ev) (h : Next m ev m') : m'.NotAbsorbed := by
  cases h with
  | hook => exact fun h => by cases h
  | @hart ev k hext hk =>
    obtain ⟨f, fs, s', gs, hf, rfl, hnext⟩ := Kernel.step_next hk
    intro hraised
    rcases Bool.or_eq_true_iff.mp hraised with hr | he
    · rcases hm hr with hp | hent
      · rcases hnext.msip hp with hp' | ⟨rfl, sys, rfl⟩
        · exact Or.inl hp'
        · have hno := hok rfl ⟨sys, by rw [hf]; rfl⟩
          rw [hr] at hno
          cases hno
      · exact Or.inr (by simp [hent])
    · cases hnext with
      | external => exact Or.inl rfl
      | _ => cases he

/-- The clear drops what was raised after the call of the hook. -/
theorem ClearOk.of_next {m m' : Msi N T V} {ev : Event T V} (hent : m.Entered)
    (h : Next m ev m') (hm' : m'.NotAbsorbed) : m.ClearOk ev := by
  rintro rfl ⟨sys, hsys⟩
  cases h with
  | hook he =>
    have hhook := (hent he).symm.trans hsys
    cases hhook
  | @hart ev k hext hk =>
    obtain ⟨f, fs, s', gs, hf, rfl, hnext⟩ := Kernel.step_next hk
    rw [hf] at hsys
    obtain rfl : f = .clear sys := Option.some.inj hsys
    by_contra hr
    have hraised : m.raised = true := by simpa using hr
    have hne : m.entering = false := Bool.eq_false_iff.mpr fun he => by cases hext he
    cases hnext with
    | call hu => cases hu
    | clear =>
      rcases hm' (by simp [hraised]) with hp | he
      · cases hp
      · simp [hne, Event.isTrapSoft] at he

/-- While nothing is absorbed, what was raised reaches the hook: a hart that has
taken the interrupt calls the hook next, and any other takes it as soon as
interrupts are enabled. -/
theorem NotAbsorbed.serviced {m : Msi N T V} {f : Frame N T V} {fs : List (Frame N T V)}
    (hm : m.NotAbsorbed) (hr : m.raised = true) (hf : m.kernel.frames = f :: fs) :
    (m.entering = true ∧ step m .tick = some { m with entering := false, raised := false }) ∨
    (m.entering = false ∧ (m.kernel.shared.mie = true →
      ∃ m', step m .trapSoft = some m' ∧ m'.entering = true ∧ m'.raised = true)) := by
  obtain ⟨⟨s, frames⟩, entering, raised⟩ := m
  obtain rfl : raised = true := hr
  obtain rfl : frames = f :: fs := hf
  cases entering with
  | true => exact Or.inl ⟨rfl, rfl⟩
  | false =>
    have hp : s.msip = true := (hm rfl).resolve_right (by simp)
    refine Or.inr ⟨rfl, fun hmie => ?_⟩
    have hmie' : s.mie = true := hmie
    refine ⟨⟨⟨{ s with mie := false }, [.hook none, f] ++ fs⟩, true, true⟩, ?_, rfl, rfl⟩
    simp [step, Kernel.step, frameStep, Event.isExternal, Event.isTrapSoft, hmie', hp]

/-! ### The window -/

/-- The other hart raises nothing from the call of the hook to the clear. -/
def WindowOk (m : Msi N T V) (ev : Event T V) : Prop :=
  ev = .external → m.entering = false → ∀ f ∈ m.kernel.frames.head?, f.acknowledging = false

/-- Nothing has been raised since the call of the hook, up to the clear. -/
def Quiet (m : Msi N T V) : Prop :=
  m.entering = false → ∀ f ∈ m.kernel.frames.head?, f.acknowledging = true → m.raised = false

theorem Quiet.next {m m' : Msi N T V} {ev : Event T V} (hm : m.Quiet)
    (hmask : m.kernel.Masked) (hok : m.WindowOk ev) (h : Next m ev m') : m'.Quiet := by
  cases h with
  | hook => exact fun _ _ _ _ => rfl
  | @hart ev k hext hk =>
    obtain ⟨f, fs, s', gs, hf, rfl, hnext⟩ := Kernel.step_next hk
    intro hent' g hg hack
    obtain ⟨hent, htrap⟩ := Bool.or_eq_false_iff.mp hent'
    have hhead : f ∈ m.kernel.frames.head? := by
      rw [hf]
      rfl
    rcases hnext.acknowledging (fun he => by rw [he] at htrap; cases htrap) with
      rfl | ⟨g', gs', rfl, hgf⟩
    · -- below the innermost activation nobody acknowledges
      have hgfs : g ∈ fs := List.mem_of_mem_head? hg
      have hi := hmask.tail f fs (by rw [hf]) g hgfs
      rw [Frame.not_acknowledging hi] at hack
      cases hack
    · obtain rfl : g' = g := Option.some.inj hg
      have hfack := hgf hack
      cases hev : ev.isExternal with
      | false => rw [Bool.or_false]; exact hm hent f hhead hfack
      | true =>
        cases ev with
        | external =>
          rw [hok rfl hent f hhead] at hfack
          cases hfack
        | _ => cases hev

/-- Where the other hart stays out of the window between the call of the hook
and the clear, every clear is in order. -/
theorem clearOk_of_windowOk {es : List (Event T V)}
    (h : Along step WindowOk (init : Msi N T V) es) :
    Along step ClearOk (init : Msi N T V) es := by
  refine along_of_along (I := fun m : Msi N T V => Reach step init m ∧ m.Entered ∧ m.Quiet)
    ?_ ?_ ⟨.refl _, fun h => (by cases h), fun _ _ _ _ => rfl⟩ h
  · rintro m ev ⟨-, hent, hq⟩ - ⟨sys, hsys⟩
    have hne : m.entering = false := by
      by_contra he
      have hhook := hent (by simpa using he)
      rw [hsys] at hhook
      cases hhook
    exact hq hne _ hsys rfl
  · intro m ev m' ⟨hr, hent, hq⟩ hok hs
    have hnext := step_next hs
    exact ⟨hr.tail trivial hs, hent.next hnext,
      hq.next (Kernel.masked (reachable_kernel hr)) hok hnext⟩

/-- **When no software interrupt of another hart is absorbed.** In every state
of a run, what another hart has raised after the start of the latest
`__Inner_MachineSoft` is still pending or a `MachineSoft` is about to call the
hook, exactly when no `clear_pend` of the run clears the bit after another
hart has raised it and before the hook is called again. -/
theorem not_absorbed_iff (es : List (Event T V)) :
    Always step NotAbsorbed (init : Msi N T V) es ↔ Along step ClearOk (init : Msi N T V) es := by
  refine always_iff_along (I := fun m : Msi N T V => m.NotAbsorbed ∧ m.Entered)
    (fun m hm => hm.1) ?_ ?_ ?_
  · intro m ev m' hm hok hs
    exact ⟨hm.1.next hok (step_next hs), hm.2.next (step_next hs)⟩
  · intro m ev m' hm hs hm'
    exact .of_next hm.2 (step_next hs) hm'
  · exact ⟨fun h => (by cases h), fun h => (by cases h)⟩

/-- The other hart raises the interrupt once to enter `MachineSoft`, and again
when the hook has returned. -/
theorem absorbed_after_hook : ∃ es : List (Event Unit Unit),
    ¬ Always step NotAbsorbed (init : Msi 1 Unit Unit) es := by
  refine ⟨[.setMie true, .external, .trapSoft, .tick, .ret, .external, .tick, .tick], fun h => ?_⟩
  have hrun : (exec step (init : Msi 1 Unit Unit)
      [.setMie true, .external, .trapSoft, .tick, .ret, .external, .tick, .tick]).map
        (fun m => (m.raised, m.kernel.shared.msip, m.entering)) = some (true, false, false) := by
    decide
  obtain ⟨m, hm, hobs⟩ := Option.map_eq_some_iff.mp hrun
  simp only [Prod.mk.injEq] at hobs
  rcases h.of_exec hm hobs.1 with hp | he
  · rw [hobs.2.1] at hp
    cases hp
  · rw [hobs.2.2] at he
    cases he

end Msi
end RtAsync

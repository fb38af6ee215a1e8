/-
# Wakers of a finished task

`TaskStorage::poll` stores null into `executor_ptr` when the future has
returned `Ready`, so that later wakes pass the task by. A wake is not one
access, though: it loads `executor_ptr`, sets `RUN_QUEUED`, and stores the
executor it has loaded back when it links the task.

Which tasks have retired is kept beside the hart: the null has been stored,
and no `Spawner::spawn` of the task has come since. A push that is owed when
the null is stored would undo it; there is none, since an activation that owes
a push of a task has nobody above it that has dequeued the task
(`Kernel.Apart`).

Key definitions: `Kernel.Apart`, `Retiring`, `Retiring.Unreached`,
`Retiring.Unlinked`, `Retiring.FetchOk`.
Key theorems: `Kernel.apart`, `Retiring.retired_unreached`,
`Retiring.stale_wake`.
-/
import RtAsync.Executor.Incarnation

namespace RtAsync

open Function (update update_self update_of_ne)
open Transition (Along Always always_of_along along_of_along exec)

variable {N : ℕ} {T V : Type} [DecidableEq T]

/-! ### Who owes a push of a task that is dequeued -/

namespace Kernel

omit [DecidableEq T] in
/-- Nobody above an activation that owes the push of a task has dequeued it. -/
def Apart (k : Kernel N T V) : Prop :=
  k.frames.Pairwise fun h g => ∀ t e q, g.push = some (t, e) → h.serving ≠ some (t, q)

theorem Apart.next {s s' : Shared N T V} {f : Frame N T V} {ev : Event T V}
    {fs gs : List (Frame N T V)} (hk : Apart ⟨s, f :: fs⟩) (hb : Balanced ⟨s, f :: fs⟩)
    (h : Next s f ev s' gs) : Apart ⟨s', gs ++ fs⟩ := by
  obtain ⟨hf, hfs⟩ := List.pairwise_cons.mp hk
  refine List.pairwise_append.mpr ⟨?_, hfs, ?_⟩
  · -- a handler that has just been entered serves nobody
    cases h with
    | trapSoft => simp [Frame.serving]
    | trapIsr => simp [Frame.serving]
    | isrRet => exact List.Pairwise.nil
    | mret => exact List.Pairwise.nil
    | _ => exact List.pairwise_singleton _ _
  · intro g hg g' hg' t e q hp hs
    rcases h.serving hg hs with hs' | hq
    · exact hf g' hg' t e q hp hs'
    · exact hb.not_linked (Or.inr (owed_pos (List.mem_cons_of_mem _ hg') hp)) ⟨q, hq⟩

theorem apart {k : Kernel N T V} (h : Reachable k) : Apart k := by
  have hinv : Reachable k ∧ Apart k := by
    refine h.invariant (I := fun k => Reachable k ∧ Apart k) ?_
      ⟨.refl _, List.pairwise_singleton _ _⟩
    intro k ev k' ⟨hr, hk⟩ hstep
    have hb := balanced hr
    obtain ⟨f, fs, s', gs, hkk, rfl, hnext⟩ := step_next hstep
    refine ⟨hr.tail trivial hstep, ?_⟩
    rw [hkk] at hk hb
    exact hk.next hb hnext
  exact hinv.2

end Kernel

/-! ### The tasks that have retired -/

/-- `Spawner::spawn` ends a retirement at its first access; the completion
begins one where it stores null into `executor_ptr`. -/
def retiredTick (f : Frame N T V) (retired : T → Bool) : T → Bool :=
  match f.calling with
  | some (.spawnFlag _ t) => update retired t false
  | _ => match f with
    | .run _ (.storeNull t) => update retired t true
    | _ => retired

def Kernel.retiredNext (k : Kernel N T V) (ev : Event T V) (retired : T → Bool) : T → Bool :=
  match ev with
  | .tick => match k.frames with
    | f :: _ => retiredTick f retired
    | [] => retired
  | _ => retired

/-- The hart, and the tasks that have retired. -/
structure Retiring (N : ℕ) (T V : Type) where
  kernel : Kernel N T V
  retired : T → Bool

theorem retiredTick_cases (f : Frame N T V) (retired : T → Bool) :
    (∃ e t, f.calling = some (.spawnFlag e t) ∧ retiredTick f retired = update retired t false) ∨
    (∃ q t, f = .run q (.storeNull t) ∧ retiredTick f retired = update retired t true) ∨
    ((∀ e t, f.calling ≠ some (.spawnFlag e t)) ∧ retiredTick f retired = retired) := by
  unfold retiredTick
  split
  · rename_i e t hc
    exact Or.inl ⟨e, t, hc, rfl⟩
  · rename_i hc
    split
    · rename_i q t
      exact Or.inr (Or.inl ⟨q, t, rfl, rfl⟩)
    · exact Or.inr (Or.inr ⟨fun e t => hc e t, rfl⟩)

/-- A task that is retired after a step was so before, or retires at it. -/
theorem Kernel.retired_of_retiredNext (s : Shared N T V) {f : Frame N T V}
    (fs : List (Frame N T V)) {ev : Event T V} {retired : T → Bool} {t : T}
    (h : Kernel.retiredNext ⟨s, f :: fs⟩ ev retired t = true) :
    (retired t = true ∧ ∀ e, ev = .tick → f.calling ≠ some (.spawnFlag e t)) ∨
      (ev = .tick ∧ ∃ q, f = .run q (.storeNull t)) := by
  cases ev with
  | tick =>
    have h : retiredTick f retired t = true := h
    rcases retiredTick_cases f retired with ⟨e, u, hc, hr⟩ | ⟨q, u, hf, hr⟩ | ⟨hno, hr⟩
    · rw [hr] at h
      by_cases htu : t = u
      · subst htu
        rw [update_self] at h
        cases h
      · rw [update_of_ne htu] at h
        refine Or.inl ⟨h, fun q _ hq => htu ?_⟩
        rw [hc] at hq
        cases hq
        rfl
    · rw [hr] at h
      by_cases htu : t = u
      · subst htu
        exact Or.inr ⟨rfl, q, hf⟩
      · rw [update_of_ne htu] at h
        refine Or.inl ⟨h, fun e _ he => ?_⟩
        rw [hf] at he
        cases he
    · rw [hr] at h
      exact Or.inl ⟨h, fun e _ => hno e t⟩
  | _ => exact Or.inl ⟨h, fun e hev => by cases hev⟩

namespace Retiring

def init : Retiring N T V := ⟨.init, fun _ => false⟩

def step (h : Retiring N T V) (ev : Event T V) : Option (Retiring N T V) :=
  (h.kernel.step ev).map fun k' => ⟨k', h.kernel.retiredNext ev h.retired⟩

/-- The back-pointer of a retired task is null. -/
def Unreached (h : Retiring N T V) : Prop :=
  ∀ t, h.retired t = true → h.kernel.shared.ptr t = none

/-- The step links no retired task. -/
def Unlinked (h : Retiring N T V) (ev : Event T V) : Prop :=
  ∀ h', step h ev = some h' → ∀ t e, h.retired t = true → t ∈ h'.kernel.shared.queue e →
    t ∈ h.kernel.shared.queue e

/-- The next access of the innermost activation is not the `fetch_or` of a wake
that has loaded the back-pointer of a task before the task retired, and that
finds `RUN_QUEUED` clear. -/
def FetchOk (h : Retiring N T V) (ev : Event T V) : Prop :=
  ev = .tick → ∀ f fs t e, h.kernel.frames = f :: fs → f.calling = some (.wakeFlag t e) →
    h.kernel.shared.flag t = false → h.retired t = false

/-- A retired task has a null back-pointer, and nobody owes a push of it. -/
structure Inv (h : Retiring N T V) : Prop where
  reachable : h.kernel.Reachable
  ptr : Unreached h
  push : ∀ t, h.retired t = true → ∀ f ∈ h.kernel.frames, ∀ e, f.push ≠ some (t, e)

theorem step_some {h h' : Retiring N T V} {ev : Event T V} (hs : step h ev = some h') :
    ∃ f fs s' gs, h = ⟨⟨h.kernel.shared, f :: fs⟩, h.retired⟩ ∧
      h' = ⟨⟨s', gs ++ fs⟩, h.kernel.retiredNext ev h.retired⟩ ∧
      Kernel.step h.kernel ev = some h'.kernel ∧ Next h.kernel.shared f ev s' gs := by
  obtain ⟨k', hk', rfl⟩ := Option.map_eq_some_iff.mp hs
  obtain ⟨f, fs, s', gs, hk, rfl, hnext⟩ := Kernel.step_next hk'
  exact ⟨f, fs, s', gs, by rw [← hk], rfl, hk', hnext⟩

section Step

variable {s s' : Shared N T V} {f : Frame N T V} {ev : Event T V} {fs gs : List (Frame N T V)}
  {retired : T → Bool}

theorem Inv.ptr_next (hI : Inv ⟨⟨s, f :: fs⟩, retired⟩) (hn : Next s f ev s' gs) :
    Unreached ⟨⟨s', gs ++ fs⟩, Kernel.retiredNext ⟨s, f :: fs⟩ ev retired⟩ := by
  intro t ht
  show s'.ptr t = none
  rcases Kernel.retired_of_retiredNext s fs ht with ⟨hb, -⟩ | ⟨rfl, q, rfl⟩
  · cases hp : s'.ptr t with
    | none => rfl
    | some e =>
      exfalso
      rcases hn.ptr_some hp with hp | hp
      · have hnone : s.ptr t = none := hI.ptr t hb
        rw [hnone] at hp
        cases hp
      · exact hI.push t hb f List.mem_cons_self e hp
  · cases hn with
    | call hu _ => cases hu
    | storeNull => rw [Shared.setTask_ptr, update_self]

/-- A task retires when nobody owes a push of it, and the `fetch_or` of a stale
wake is the only access after which somebody does. -/
theorem Inv.push_next (hI : Inv ⟨⟨s, f :: fs⟩, retired⟩) (hok : FetchOk ⟨⟨s, f :: fs⟩, retired⟩ ev)
    (hn : Next s f ev s' gs) (t : T) (ht : Kernel.retiredNext ⟨s, f :: fs⟩ ev retired t = true)
    (g : Frame N T V) (hg : g ∈ gs ++ fs) (e : Fin N) : g.push ≠ some (t, e) := by
  intro hp
  rcases Kernel.retired_of_retiredNext s fs ht with ⟨hb, hno⟩ | ⟨rfl, q, rfl⟩
  · have hpush : ∀ g ∈ f :: fs, ∀ e, g.push ≠ some (t, e) := hI.push t hb
    rcases List.mem_append.mp hg with hg | hg
    · rcases hn.push hg hp with hf | ⟨hev, hclear, hc | hc⟩
      · exact hpush f List.mem_cons_self e hf
      · have hfalse : retired t = false := hok hev f fs t e rfl hc hclear
        rw [hfalse] at hb
        cases hb
      · exact hno e hev hc
    · exact hpush g (List.mem_cons_of_mem _ hg) e hp
  · have hapart := List.pairwise_cons.mp (Kernel.apart hI.reachable)
    rcases List.mem_append.mp hg with hg | hg
    · cases hn with
      | call hu _ => cases hu
      | storeNull =>
        rw [List.mem_singleton.mp hg] at hp
        cases hp
    · exact hapart.1 g hg t e q hp rfl

end Step

theorem Inv.next {h h' : Retiring N T V} {ev : Event T V} (hI : Inv h) (hok : FetchOk h ev)
    (hs : step h ev = some h') : Inv h' := by
  obtain ⟨f, fs, s', gs, hh, rfl, hk, hn⟩ := step_some hs
  have hr : Kernel.Reachable ⟨s', gs ++ fs⟩ := hI.reachable.tail trivial hk
  rw [hh] at hI hok ⊢
  exact ⟨hr, hI.ptr_next hn, hI.push_next hok hn⟩

theorem Inv.unlinked {h : Retiring N T V} (hI : Inv h) (ev : Event T V) : Unlinked h ev := by
  intro h' hs t e ht hq
  obtain ⟨f, fs, s', gs, hh, rfl, -, hn⟩ := step_some hs
  rw [hh] at hI
  rcases hn.linked hq with hq | hp | ⟨-, hp⟩
  · exact hq
  · exact absurd hp (hI.push t ht f List.mem_cons_self e)
  · have hnone : h.kernel.shared.ptr t = none := hI.ptr t ht
    rw [hnone] at hp
    cases hp

theorem init_inv : Inv (init : Retiring N T V) where
  reachable := .refl _
  ptr _ ht := by cases ht
  push _ ht := by cases ht

/-- A stale wake that goes on undoes the retirement. -/
theorem not_unreached_of_fetch {h h' : Retiring N T V} (hno : ¬ FetchOk h .tick)
    (hs : exec step h [.tick, .tick] = some h') : ¬ Unreached h' := by
  intro hun
  refine hno fun _ f fs t e hfr hc hclear => ?_
  obtain ⟨h₁, hs₁, hs⟩ := Option.bind_eq_some_iff.mp hs
  obtain ⟨h₂, hs₂, hs⟩ := Option.bind_eq_some_iff.mp hs
  obtain rfl : h₂ = h' := Option.some.inj hs
  have hu := Frame.user_of_calling hc
  have hfresh : (h.kernel.shared.tasks t).state.runQueued = false := hclear
  have hkeep : ∀ (g : Frame N T V) (c : Call N T), g.user = some (some c) →
      (∀ e t, c ≠ .spawnFlag e t) → retiredTick g h.retired = h.retired := by
    intro g c hg hne
    rcases retiredTick_cases g h.retired with ⟨q, u, hcall, -⟩ | ⟨q, u, rfl, -⟩ | ⟨-, hr⟩
    · rw [Frame.calling_eq hg] at hcall
      exact absurd (Option.some.inj hcall) (hne q u)
    · cases hg
    · exact hr
  -- the `fetch_or`
  obtain ⟨f₁, fs₁, s₁, gs₁, hh, rfl, -, hn₁⟩ := step_some hs₁
  rw [hh] at hfr
  obtain ⟨rfl, rfl⟩ := List.cons.inj hfr
  obtain ⟨c₁, hcall, rfl⟩ := hn₁.calling hc
  obtain ⟨-, rfl⟩ := Prod.mk.inj (Option.some.inj hcall)
  rw [hfresh] at hs₂
  have hret₁ : h.kernel.retiredNext .tick h.retired = h.retired := by
    rw [hh]
    exact hkeep f₁ _ hu (by simp)
  rw [hret₁] at hs₂
  -- the push
  have hu₁ : (f₁.setCall (some (.wakePush t e))).user = some (some (.wakePush t e)) :=
    Frame.setCall_user hu _
  obtain ⟨f₂, fs₂, s₂, gs₂, hh₂, rfl, -, hn₂⟩ := step_some hs₂
  have hf₂ : f₁.setCall (some (.wakePush t e)) :: fs₁ = f₂ :: fs₂ :=
    congrArg (fun r : Retiring N T V => r.kernel.frames) hh₂
  obtain ⟨rfl, rfl⟩ := List.cons.inj hf₂
  obtain ⟨c₂, hpush, -⟩ := hn₂.calling (Frame.calling_eq hu₁)
  obtain ⟨s₃, henq, hpush⟩ := Option.map_eq_some_iff.mp hpush
  obtain ⟨rfl, -⟩ := Prod.mk.inj hpush
  obtain ⟨bm, -, rfl⟩ := Shared.enqueueLocked_some henq
  by_contra hret
  have hret₂ : (Kernel.retiredNext ⟨s₁, f₁.setCall (some (.wakePush t e)) :: fs₁⟩ .tick
      h.retired) t = true := by
    have hsame := hkeep _ _ hu₁ (by simp)
    show retiredTick _ h.retired t = true
    rw [hsame]
    exact Bool.eq_true_of_not_eq_false hret
  have hnull := hun t hret₂
  rw [show (Shared.pushed s₁ e t bm).ptr t = some e by rw [Shared.pushed_ptr, update_self]] at hnull
  cases hnull

/-- **A finished task is unreachable for old wakers**, in every run in which no
wake that has loaded the back-pointer before the completion does its
`fetch_or` after it, finds `RUN_QUEUED` clear, and no `Spawner::spawn` has come
between: the back-pointer stays null and nobody links the task. A run that ends
before such a `fetch_or` loses this when that wake goes on. -/
theorem retired_unreached (es : List (Event T V)) :
    (Along step FetchOk (init : Retiring N T V) es →
      Always step Unreached (init : Retiring N T V) es ∧
        Along step Unlinked (init : Retiring N T V) es) ∧
    ∀ h h' : Retiring N T V, exec step init es = some h → ¬ FetchOk h .tick →
      exec step h [.tick, .tick] = some h' → ¬ Unreached h' := by
  refine ⟨fun hok => ⟨?_, ?_⟩, fun h h' _ hno hs => not_unreached_of_fetch hno hs⟩
  · exact always_of_along (I := Inv) (fun _ hI => hI.ptr) (fun _ _ _ hI hok hs => hI.next hok hs)
      init_inv hok
  · exact along_of_along (I := Inv) (fun _ ev hI => hI.unlinked ev)
      (fun _ _ _ hI hok hs => hI.next hok hs) init_inv hok

/-- A task is polled once. A wake of it from the idle loop is interrupted after
it has loaded the back-pointer; the handler wakes the task too, which
preempts, returns `Ready` and completes. Then the first wake goes on. -/
def interruptedWake : List (Event Unit Unit) :=
  List.flatten [Event.spawnTask ⟨0⟩ (), [.setMie true], Event.machineSoft, [.tick, .pending],
    List.replicate 5 .tick, [.call (.wake ()), .tick, .trapIsr, .call (.wake ())],
    List.replicate 5 .tick, [.ret], Event.machineSoft,
    [.tick, .ready (), .tick, .tick, .ret, .tick, .tick], List.replicate 5 .tick, [.tick, .tick]]

/-- It stores the executor back into `executor_ptr` of the finished task, and
links it. -/
theorem stale_wake : ∃ h : Retiring 1 Unit Unit,
    exec step init interruptedWake = some h ∧ h.retired () = true ∧
      h.kernel.shared.ptr () = some 0 ∧ h.kernel.shared.queue 0 = [()] ∧
      ¬(Always step Unreached (init : Retiring 1 Unit Unit) interruptedWake ∧
        Along step Unlinked (init : Retiring 1 Unit Unit) interruptedWake) := by
  have hobs : ((exec step (init : Retiring 1 Unit Unit) interruptedWake).map fun h =>
      (h.retired (), h.kernel.shared.ptr (), h.kernel.shared.queue 0)) =
      some (true, some 0, [()]) := by decide +kernel
  obtain ⟨h, hexec, hobs⟩ := Option.map_eq_some_iff.mp hobs
  obtain ⟨hret, hobs⟩ := Prod.mk.inj hobs
  obtain ⟨hptr, hq⟩ := Prod.mk.inj hobs
  refine ⟨h, hexec, hret, hptr, hq, fun hall => ?_⟩
  have hnull : h.kernel.shared.ptr () = none := hall.1.of_exec hexec () hret
  rw [hptr] at hnull
  cases hnull

end Retiring
end RtAsync

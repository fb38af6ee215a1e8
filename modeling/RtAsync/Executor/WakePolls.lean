/-
# A wake is heard

What a waker promises: a task that is woken while its future is there is polled
again. A run from the wake to the idle loop has to make the access that flags
the task, then to dequeue the task, and then either to poll the future or to
find that it is finished, and then the completion lies in between.

Key definitions: `Kernel.Has`, `Kernel.PollBegins`, `Kernel.Completes`.
Key theorems: `Kernel.Has.step`, `Next.pollable`, `Kernel.pollBegins_iff`,
`Kernel.wake_polls`.
-/
import RtAsync.Executor.Quiesce

namespace RtAsync

open Function (update_self update_of_ne)
open Transition (exec exec_append exists_step Meets reach_of_exec)

variable {N : ℕ} {T V : Type} [DecidableEq T]

section Step

variable {s s' : Shared N T V} {f : Frame N T V} {ev : Event T V} {gs : List (Frame N T V)}

/-- An executor that has dequeued a task reads its `poll_fn`, or is
interrupted. -/
theorem Next.of_got {e : Fin N} {t : T} (h : Next s (.run e (.got t)) ev s' gs) :
    (ev = .tick ∧ ((s.tasks t).pollFn = some .poll ∨ (s.tasks t).pollFn = some .pollExited)) ∨
      ∃ hs, gs = hs ++ [.run e (.got t)] := by
  cases h with
  | call hu hc => cases hu
  | begin hu hc => cases hu
  | setMie b hu hi => cases hu
  | trapSoft => exact Or.inr ⟨[.hook none], rfl⟩
  | trapIsr => exact Or.inr ⟨[.isr none], rfl⟩
  | external => exact Or.inr ⟨[], rfl⟩
  | gotPoll hfn => exact Or.inl ⟨rfl, Or.inl hfn⟩
  | gotExited hfn => exact Or.inl ⟨rfl, Or.inr hfn⟩

/-- The future of the task is polled where the task is dequeued. -/
def Shared.Pollable (s : Shared N T V) (t : T) : Prop := (s.tasks t).pollFn = some .poll

theorem Shared.Pollable.setTask {t u : T} {i : TaskInfo N T V} (h : s.Pollable u)
    (hi : t = u → (s.tasks t).pollFn = some .poll → i.pollFn = some .poll) :
    (s.setTask t i).Pollable u := by
  unfold Shared.Pollable Shared.setTask at *
  by_cases hu : u = t
  · subst hu
    simpa using hi rfl h
  · simpa [hu] using h

theorem Shared.wakeLocked_pollable {w u : T} (h : s.wakeLocked w = some s') (hu : s.Pollable u) :
    s'.Pollable u := by
  have hflag : (s.runEnqueue w).1.Pollable u := hu.setTask fun _ h => h
  rcases Shared.wakeLocked_some h with ⟨-, rfl⟩ | ⟨e, -, ⟨-, rfl⟩ | ⟨-, bm, -, rfl⟩⟩
  · exact hu
  · exact hflag
  · exact hflag.setTask (s := (s.runEnqueue w).1) fun _ h => h

theorem callStep_pollable {c : Call N T} {c' : Option (Call N T)} {u : T}
    (h : callStep s c = some (s', c')) (hu : s.Pollable u) : s'.Pollable u := by
  cases callStep_next h with
  | storageFn t => exact hu.setTask fun _ _ => rfl
  | wakeNull => exact hu
  | wake => exact hu
  | pendMark => exact hu
  | pendSend => exact hu
  | spawnPend => exact hu
  | spawnQuiet => exact hu
  | joinWait => exact hu
  | _ => exact hu.setTask fun _ h => h

/-- Until the executor of the task stores `poll_exited`. -/
theorem Next.pollable {t : T} (h : Next s f ev s' gs) (ht : s.Pollable t) :
    s'.Pollable t ∨ (ev = .tick ∧ ∃ e, f = .run e (.storeExited t)) := by
  cases h with
  | call _ hc => exact Or.inl (callStep_pollable hc ht)
  | begin _ hc =>
    obtain ⟨⟨tk, rfl⟩, -⟩ := callStart_shared hc
    exact Or.inl ht
  | dequeue => exact Or.inl (ht.setTask fun _ h => h)
  | ready => exact Or.inl (ht.setTask fun _ h => h)
  | storeResult => exact Or.inl (ht.setTask fun _ h => h)
  | storeNull => exact Or.inl (ht.setTask fun _ h => h)
  | dropInPlace => exact Or.inl (ht.setTask fun _ h => h)
  | storeExited e u =>
    by_cases hu : u = t
    · subst hu
      exact Or.inr ⟨rfl, e, rfl⟩
    · exact Or.inl (ht.setTask fun he => absurd he hu)
  | notify hn =>
    have hdespawned : ∀ u, (s.despawned u).Pollable t := fun u => ht.setTask fun _ h => h
    rcases Shared.notifyLocked_some hn with ⟨-, rfl⟩ | ⟨w, -, hw⟩
    · exact Or.inl (hdespawned _)
    · exact Or.inl (Shared.wakeLocked_pollable hw (hdespawned _))
  | _ => exact Or.inl ht

end Step

namespace Kernel

variable {k k' : Kernel N T V} {ev : Event T V} {t : T}

/-! ### An activation that is left -/

/-- The activation `g` lies on the stack, on top of `fs`. -/
def Has (g : Frame N T V) (fs : List (Frame N T V)) (k : Kernel N T V) : Prop :=
  ∃ hs, k.frames = hs ++ g :: fs

theorem Has.step {g : Frame N T V} {fs : List (Frame N T V)} (hk : Has g fs k)
    (h : step k ev = some k') :
    Has g fs k' ∨ (k.frames = g :: fs ∧
      ∃ s' gs, k' = ⟨s', gs ++ fs⟩ ∧ Next k.shared g ev s' gs) := by
  obtain ⟨hs, hk⟩ := hk
  obtain ⟨f, fs', s', gs, hframes, rfl, hnext⟩ := step_next h
  have hframes : k.frames = f :: fs' := by rw [hframes]
  cases hs with
  | nil =>
    obtain ⟨rfl, rfl⟩ := List.cons.inj (hframes.symm.trans hk)
    exact Or.inr ⟨hk, s', gs, rfl, hnext⟩
  | cons f' hs =>
    obtain ⟨rfl, rfl⟩ := List.cons.inj (hframes.symm.trans hk)
    exact Or.inl ⟨gs ++ hs, by simp⟩

omit [DecidableEq T] in
/-- In the idle loop nothing else is left. -/
theorem Idle.not_has (hk : k.Idle) {g : Frame N T V} (hg : g ≠ .base none)
    (fs : List (Frame N T V)) : ¬Has g fs k := by
  rintro ⟨hs, hframes⟩
  have hmem : g ∈ k.frames := by
    rw [hframes]
    exact List.mem_append_right _ List.mem_cons_self
  rw [hk.frames] at hmem
  exact hg (List.mem_singleton.mp hmem)

/-! ### From the wake to the poll -/

/-- A poll of the future of `t` begins: the activation that has dequeued `t`
goes on inside of the future. -/
def PollBegins (t : T) (k : Kernel N T V) (ev : Event T V) : Prop :=
  ∃ e fs s', k.frames = .run e (.got t) :: fs ∧
    step k ev = some ⟨s', .run e (.poll t none) :: fs⟩

/-- The future of `t` is gone, and the step replaces `poll_fn`. -/
def Completes (t : T) (k : Kernel N T V) (ev : Event T V) : Prop :=
  ∃ e fs s', k.frames = .run e (.storeExited t) :: fs ∧
    step k ev = some ⟨s', .run e (.notify t) :: fs⟩ ∧ (s'.tasks t).pollFn = some .pollExited

theorem pollBegins_iff : PollBegins t k ev ↔
    ev = .tick ∧ k.shared.Pollable t ∧ ∃ e fs, k.frames = .run e (.got t) :: fs := by
  constructor
  · rintro ⟨e, fs, s', hframes, hs⟩
    obtain ⟨s₁, gs, hk, hnext⟩ := next_of_frames hframes hs
    obtain ⟨rfl, hgs⟩ := Kernel.mk.inj hk
    obtain rfl : [_] = gs := List.append_cancel_right hgs
    cases hnext with
    | gotPoll hfn => exact ⟨rfl, hfn, e, fs, hframes⟩
  · rintro ⟨rfl, hp, e, fs, hframes⟩
    have hrun : tickStep k.shared (.run e (.got t)) = some (k.shared, [.run e (.poll t none)]) := by
      simp [tickStep, Frame.user, runStep, show (k.shared.tasks t).pollFn = some .poll from hp]
    exact ⟨e, fs, k.shared, hframes, by simp [step, frameStep, hframes, hrun]⟩

theorem completes_iff : Completes t k ev ↔
    ev = .tick ∧ ∃ e fs, k.frames = .run e (.storeExited t) :: fs := by
  constructor
  · rintro ⟨e, fs, s', hframes, hs, -⟩
    obtain ⟨s₁, gs, hk, hnext⟩ := next_of_frames hframes hs
    obtain ⟨rfl, hgs⟩ := Kernel.mk.inj hk
    obtain rfl : [_] = gs := List.append_cancel_right hgs
    cases hnext with
    | storeExited => exact ⟨rfl, e, fs, hframes⟩
  · rintro ⟨rfl, e, fs, hframes⟩
    let s' := k.shared.setTask t { k.shared.tasks t with pollFn := some .pollExited }
    have hrun : tickStep k.shared (.run e (.storeExited t)) = some (s', [.run e (.notify t)]) := rfl
    exact ⟨e, fs, s', hframes, by simp [step, frameStep, hframes, hrun],
      by simp [s', Shared.setTask]⟩

/-- A future that was there and is not any more has been completed. -/
theorem completes {es : List (Event T V)} (he : exec step k es = some k')
    (ht : k.shared.Pollable t) (ht' : ¬k'.shared.Pollable t) : Meets step (Completes t) k es := by
  obtain ⟨es₁, ev, es₂, k₁, k₂, rfl, h₁, h₂, hok, -⟩ :=
    exists_step (fun k : Kernel N T V => k.shared.Pollable t) (Completes t)
      (fun k ev k' hs hp => by
        obtain ⟨f, fs, s', gs, hframes, rfl, hnext⟩ := step_next hs
        refine (hnext.pollable hp).imp_right fun ⟨hev, e, hf⟩ =>
          completes_iff.mpr ⟨hev, e, fs, ?_⟩
        rw [hframes, hf]) he ht ht'
  exact ⟨es₁, ev, es₂, k₁, k₂, rfl, h₁, h₂, hok⟩

/-- A task that is flagged is dequeued, and then polled unless it has been
completed before. -/
theorem flagged_polls (h : Reachable k) (hflag : k.shared.flag t = true)
    (ht : k.shared.Pollable t) {es : List (Event T V)} (he : exec step k es = some k')
    (hk' : k'.Idle) (hmie : k'.shared.mie = true) :
    Meets step (fun k ev => PollBegins t k ev ∨ Completes t k ev) k es := by
  have h' : Reachable k' := h.trans (reach_of_exec es he)
  obtain ⟨es₁, es₂, k₁, rfl, h₁, e, fs, hgot⟩ :=
    fetched_between he hflag (idle_unflagged h' hk' hmie t)
  rw [exec_append, h₁, Option.bind_some] at he
  obtain ⟨es₃, ev, es₄, k₂, k₃, rfl, h₂, h₃, ⟨hframes, hev, hfn⟩, -⟩ :=
    exists_step (Has (.run e (.got t)) fs)
      (fun k ev => k.frames = .run e (.got t) :: fs ∧ ev = .tick ∧
        ((k.shared.tasks t).pollFn = some .poll ∨ (k.shared.tasks t).pollFn = some .pollExited))
      (fun k ev k' hs hp => by
        rcases hp.step hs with hp | ⟨hframes, s', gs, rfl, hnext⟩
        · exact Or.inl hp
        · rcases hnext.of_got with ⟨hev, hfn⟩ | ⟨as, rfl⟩
          · exact Or.inr ⟨hframes, hev, hfn⟩
          · exact Or.inl ⟨as, by simp⟩) he ⟨[], hgot⟩ (hk'.not_has (fun hg => by cases hg) fs)
  rcases hfn with hfn | hfn
  · exact .append_left h₁ ⟨es₃, ev, es₄, k₂, k₃, rfl, h₂, h₃, 
      Or.inl (pollBegins_iff.mpr ⟨hev, hfn, e, fs, hframes⟩)⟩
  · have hgone : ¬k₂.shared.Pollable t := fun hp => by
      rw [show (k₂.shared.tasks t).pollFn = some .poll from hp] at hfn
      cases hfn
    have hbefore : exec step k (es₁ ++ es₃) = some k₂ := by
      rw [exec_append, h₁, Option.bind_some, h₂]
    rw [← List.append_assoc]
    exact ((completes hbefore ht hgone).mono fun _ _ => Or.inr).append_right _

/-- **A wake is heard.** From a reachable state where a task is woken, or is
flagged as queued, while its future is there: every run that ends in the idle
loop with interrupts enabled begins a poll of the future, or completes it. -/
theorem wake_polls (h : Reachable k) (ht : k.shared.Pollable t) {es : List (Event T V)}
    (hidle : k'.Idle) (hmie : k'.shared.mie = true) :
    (k.shared.flag t = true → exec step k es = some k' →
      Meets step (fun k ev => PollBegins t k ev ∨ Completes t k ev) k es) ∧
    (∀ f fs e, k.frames = f :: fs → f.user = some (some (.wake t)) →
      (k.shared.tasks t).executorPtr = some e → exec step k (.tick :: es) = some k' →
      Meets step (fun k ev => PollBegins t k ev ∨ Completes t k ev) k (.tick :: es)) := by
  refine ⟨fun hflag he => flagged_polls h hflag ht he hidle hmie, fun f fs e hk hf hptr he => ?_⟩
  have hload : step k .tick = some ⟨k.shared, f.setCall (some (.wakeFlag t e)) :: fs⟩ := by
    simp [step, frameStep, tickStep, hk, hf, callStep, hptr]
  have hcall : (f.setCall (some (.wakeFlag t e))).user = some (some (.wakeFlag t e)) :=
    Frame.setCall_user hf _
  rw [Transition.exec_cons, hload, Option.bind_some] at he
  -- the access that flags the task is still to come, and made by the end
  obtain ⟨es₁, ev, es₂, k₁, k₂, rfl, h₁, h₂, hflag, he⟩ :=
    exists_step (Has (f.setCall (some (.wakeFlag t e))) fs)
      (fun k ev => ∀ k', step k ev = some k' → k'.shared.flag t = true)
      (fun k ev k' hs hp => by
        rcases hp.step hs with hp | ⟨-, s', gs, rfl, hnext⟩
        · exact Or.inl hp
        · rcases hnext.of_calling hcall with ⟨-, c', hc⟩ | ⟨as, rfl⟩
          · refine Or.inr fun k'' hs' => ?_
            obtain rfl := Option.some.inj (hs.symm.trans hs')
            obtain ⟨rfl, -⟩ := Prod.mk.inj (Option.some.inj hc)
            exact Shared.flag_runEnqueue _ t
          · exact Or.inl ⟨as, by simp⟩) he ⟨[], rfl⟩
      (hidle.not_has (fun hg => by rw [hg] at hcall; cases hcall) fs)
  have hbefore : exec step k (.tick :: (es₁ ++ [ev])) = some k₂ := by
    rw [Transition.exec_cons, hload, Option.bind_some, exec_append, h₁, Option.bind_some]
    simp [exec, h₂]
  have hsplit : Event.tick :: (es₁ ++ ev :: es₂) = .tick :: (es₁ ++ [ev]) ++ es₂ := by simp
  rw [hsplit]
  by_cases hp : k₂.shared.Pollable t
  · exact .append_left hbefore (flagged_polls (h.trans (reach_of_exec _ hbefore)) (hflag k₂ h₂) hp
      he hidle hmie)
  · exact ((completes hbefore ht hp).mono fun _ _ => Or.inr).append_right _

/-- `main` wakes a task that has been polled. -/
theorem wake_polls_again : ∃ (k : Kernel 1 Unit Unit) (es : List (Event Unit Unit)),
    k.frames = [.base (some (.wake ()))] ∧
      Meets step (fun k ev => PollBegins () k ev ∨ Completes () k ev) k (.tick :: es) := by
  let turn : List (Event Unit Unit) := Event.machineSoft ++ .tick :: .pending :: .replicate 5 .tick
  let es : List (Event Unit Unit) := .replicate 4 .tick ++ turn
  let before : List (Event Unit Unit) :=
    .setMie true :: Event.spawnTask ⟨0⟩ () ++ turn ++ [.call (.wake ())]
  obtain ⟨k, hk, hobs⟩ := Option.map_eq_some_iff.mp
    (show (exec step (init : Kernel 1 Unit Unit) before).map
      (fun k => (k.frames, (k.shared.tasks ()).executorPtr, (k.shared.tasks ()).pollFn)) =
        some ([.base (some (.wake ()))], some 0, some .poll) by decide +kernel)
  obtain ⟨k', hk', hobs'⟩ := Option.map_eq_some_iff.mp
    (show (exec step (init : Kernel 1 Unit Unit) (before ++ .tick :: es)).map
      (fun k => (k.frames, k.shared.mie, k.shared.msip)) = some ([.base none], true, false) by
        decide +kernel)
  simp only [Prod.mk.injEq] at hobs hobs'
  rw [exec_append, hk, Option.bind_some] at hk'
  have hidle : k'.Idle := ⟨hobs'.1, by simp [hobs'.2.2]⟩
  exact ⟨k, es, hobs.1, (wake_polls (reach_of_exec before hk) hobs.2.2 hidle hobs'.2.1).2
    (.base (some (.wake ()))) [] 0 hobs.1 rfl hobs.2.1 hk'⟩

end Kernel
end RtAsync

/-
# Enqueues that are skipped

`State::run_enqueue` sets `RUN_QUEUED` and only then enters the critical
section that links the task. An enqueuer that finds the flag set returns at
once, and `wake_task` then does not pend: rightly so where the task is linked,
and `try_preempt` sees it. Where the activation that set the flag has been
preempted before its push, the task is linked nowhere, and stays so until that
activation goes on.

Key definitions: `Kernel.Skips`, `Kernel.Counted`, `Kernel.Redundant`,
`Kernel.WakesCounted`, `Kernel.SkipOk`.
Key theorems: `Kernel.counted_iff`, `Kernel.Pushing.next`,
`Kernel.skip_redundant_iff`, `Kernel.skip_hides_wake`.
-/
import RtAsync.Executor.Coherence

namespace RtAsync

open Function (update update_self update_of_ne)
open Transition (Along Steps along_congr exec reach_of_exec)

variable {N : ℕ} {T V : Type} [DecidableEq T]

/-- An activation that owes a push is interrupted, or makes it. -/
theorem Next.of_push {s s' : Shared N T V} {f : Frame N T V} {ev : Event T V}
    {gs : List (Frame N T V)} {t : T} {e : Fin N} (h : Next s f ev s' gs)
    (hp : f.push = some (t, e)) : (∃ hs, gs = hs ++ [f]) ∨ t ∈ s'.queue e := by
  cases h with
  | @call f c s' c' hu hc =>
    rw [Frame.push_call hu] at hp
    have hlink : t ∈ update s.queue e (s.queue e ++ [t]) e := by
      rw [update_self]
      exact List.mem_append_right _ (List.mem_singleton_self t)
    cases callStep_next hc with
    | wakePush =>
      obtain ⟨rfl, rfl⟩ := Prod.mk.inj (Option.some.inj hp)
      exact Or.inr hlink
    | spawnPush =>
      obtain ⟨rfl, rfl⟩ := Prod.mk.inj (Option.some.inj hp)
      exact Or.inr hlink
    | _ => cases hp
  | begin hu _ =>
    rw [Frame.push_idle hu] at hp
    cases hp
  | setMie _ hu _ =>
    rw [Frame.push_idle hu] at hp
    cases hp
  | trapSoft => exact Or.inl ⟨[.hook none], rfl⟩
  | trapIsr => exact Or.inl ⟨[.isr none], rfl⟩
  | external => exact Or.inl ⟨[], rfl⟩
  | _ => cases hp

namespace Kernel

/-- The next access of the innermost activation is the load of `executor_ptr`
of a wake of `t`, which finds null, while a `Spawner::spawn` of `t` stands
before its push. -/
def LoadsEarly (k : Kernel N T V) (t : T) : Prop :=
  (∃ f fs, k.frames = f :: fs ∧ f.calling = some (.wake t)) ∧ k.shared.ptr t = none ∧
    ∃ f ∈ k.frames, ∃ e, f.calling = some (.spawnPush e t)

/-- The next access of the innermost activation leaves `t` to others: the
`fetch_or` of `run_enqueue` finds the flag set, or a wake comes too early. -/
def Skips (k : Kernel N T V) (ev : Event T V) (t : T) : Prop :=
  ev = .tick ∧ ((k.Attempts t ∧ k.shared.flag t = true) ∨ k.LoadsEarly t)

/-- `t` is linked, and `try_preempt` takes its priority into account. -/
def Counted (k : Kernel N T V) (t : T) : Prop :=
  ∃ e : Fin N, t ∈ k.shared.queue e ∧ k.shared.bitmap.Mem e ∧
    ∃ p, k.shared.bitmap.highest = some (some p) ∧ p ≤ e

/-- What is skipped is counted. -/
def Redundant (k : Kernel N T V) (ev : Event T V) : Prop := ∀ t, k.Skips ev t → k.Counted t

/-- When an enqueue attempt of a run is over and the task has not been dequeued
since, it is counted. -/
def WakesCounted (es : List (Event T V)) : Prop :=
  ∀ (k k₁ k' : Kernel N T V) (es₁ es₂ es₃ : List (Event T V)) (t : T) (f g : Frame N T V)
    (fs : List (Frame N T V)),
    es = es₁ ++ .tick :: (es₂ ++ es₃) → exec step init es₁ = some k →
    k.Attempts t ∨ k.LoadsEarly t → k.frames = f :: fs → step k .tick = some k₁ →
    exec step k₁ es₂ = some k' → Along step (fun k _ => ¬ k.Dequeues t) k₁ es₂ →
    k'.frames = g :: fs → g.calling = none → k'.Counted t

/-- Nobody stands between the `fetch_or` and the push of a task that is
skipped. -/
def SkipOk (k : Kernel N T V) (ev : Event T V) : Prop :=
  ∀ t, k.Skips ev t → owed k.frames t = 0

/-! ### What is linked is counted -/

theorem counted_iff {k : Kernel N T V} (h : Reachable k) (t : T) : k.Counted t ↔ k.Linked t := by
  refine ⟨fun ⟨e, he, _⟩ => ⟨e, he⟩, fun ⟨e, he⟩ => ?_⟩
  have hmem : k.shared.bitmap.Mem e := (coherent h).set e (List.ne_nil_of_mem he)
  exact ⟨e, he, hmem, PriorityBitmap.highest_of_mem (nested h).1.wf hmem⟩

theorem flag_of_loadsEarly {k : Kernel N T V} (hb : k.Balanced) {t : T} (h : k.LoadsEarly t) :
    k.shared.flag t = true ∧ owed k.frames t ≠ 0 := by
  obtain ⟨-, -, f, hf, e, hc⟩ := h
  have hpush : f.push = some (t, e) := by
    rw [Frame.push, hc]
    rfl
  have hpos : 0 < owed k.frames t := owed_pos hf hpush
  have hbal := hb t
  refine ⟨?_, by omega⟩
  cases hflag : k.shared.flag t with
  | true => rfl
  | false =>
    rw [hflag, Bool.toNat_false] at hbal
    omega

/-- A skipped task is counted exactly when nobody owes its push. -/
theorem counted_iff_of_skips {k : Kernel N T V} (h : Reachable k) {ev : Event T V} {t : T}
    (hs : k.Skips ev t) : k.Counted t ↔ owed k.frames t = 0 := by
  have hb := balanced h
  have hflag : k.shared.flag t = true := by
    rcases hs.2 with ⟨-, hflag⟩ | hearly
    · exact hflag
    · exact (flag_of_loadsEarly hb hearly).1
  rw [counted_iff h]
  rcases (hb.linked_or_owed t).mp hflag with ⟨hl, h0⟩ | ⟨hl, h1⟩
  · exact iff_of_true hl h0
  · exact iff_of_false hl (by omega)

theorem redundant_iff {k : Kernel N T V} (h : Reachable k) (ev : Event T V) :
    k.Redundant ev ↔ k.SkipOk ev :=
  forall_congr' fun _ => forall_congr' fun hs => counted_iff_of_skips h hs

/-! ### From the attempt to its end -/

/-- The activation above `fs` owes the push of `t`, or `t` is linked. -/
def Pushing (t : T) (fs : List (Frame N T V)) (k : Kernel N T V) : Prop :=
  (∃ hs g e, k.frames = hs ++ g :: fs ∧ g.push = some (t, e)) ∨ k.Linked t

theorem linked_next {s s' : Shared N T V} {f : Frame N T V} {ev : Event T V}
    {fs gs : List (Frame N T V)} {t : T} (hl : Linked ⟨s, f :: fs⟩ t)
    (hd : ¬ Dequeues ⟨s, f :: fs⟩ t) (hn : Next s f ev s' gs) : Linked ⟨s', gs ++ fs⟩ t := by
  obtain ⟨e, he⟩ := hl
  rcases hn.stays_linked he with he' | ⟨-, hf, ts, hq⟩
  · exact ⟨e, he'⟩
  · exact absurd ⟨e, fs, ts, by rw [hf], hq⟩ hd

theorem Pushing.next {t : T} {fs₀ : List (Frame N T V)} {k k' : Kernel N T V} {ev : Event T V}
    (h : Pushing t fs₀ k) (hd : ¬ k.Dequeues t) (hstep : step k ev = some k') :
    Pushing t fs₀ k' := by
  obtain ⟨f, fs, s', gs, hk, rfl, hn⟩ := step_next hstep
  rw [hk] at hd
  rcases h with ⟨hs, g, e, hfr, hg⟩ | hl
  · rw [hk] at hfr
    cases hs with
    | cons h hs =>
      -- the activation waits below the innermost one
      obtain ⟨-, rfl⟩ := List.cons.inj hfr
      exact Or.inl ⟨gs ++ hs, g, e, by simp, hg⟩
    | nil =>
      obtain ⟨rfl, rfl⟩ := List.cons.inj hfr
      rcases hn.of_push hg with ⟨hs, rfl⟩ | hlink
      · exact Or.inl ⟨hs, f, e, by simp, hg⟩
      · exact Or.inr ⟨e, hlink⟩
  · rw [hk] at hl
    exact Or.inr (linked_next hl hd hn)

/-- After the `fetch_or` of an attempt that is not skipped, or skipped with no
push owed. -/
theorem pushing_of_attempts {t : T} {k k' : Kernel N T V} {f : Frame N T V}
    {fs : List (Frame N T V)} (hr : Reachable k) (h : k.Attempts t)
    (hok : k.shared.flag t = true → owed k.frames t = 0) (hfr : k.frames = f :: fs)
    (hstep : step k .tick = some k') : Pushing t fs k' := by
  obtain ⟨f', fs', s', gs, hk, rfl, hn⟩ := step_next hstep
  rw [hk] at hfr
  obtain ⟨rfl, rfl⟩ := List.cons.inj hfr
  obtain ⟨g, gs', hg, hcases⟩ := h
  rw [hk] at hg
  obtain ⟨rfl, rfl⟩ := List.cons.inj hg
  by_cases hflag : k.shared.flag t = true
  · -- skipped: the task is linked, and this access is no dequeue
    have hl : k.Linked t := by
      rcases ((balanced hr).linked_or_owed t).mp hflag with ⟨hl, -⟩ | ⟨-, h1⟩
      · exact hl
      · rw [hok hflag] at h1
        cases h1
    rw [hk] at hl
    refine Or.inr (linked_next hl ?_ hn)
    rintro ⟨e, gs', ts, htop, -⟩
    obtain ⟨rfl, rfl⟩ := List.cons.inj htop
    rcases hcases with ⟨q, hc | hc⟩ | ⟨q, u, hf, -⟩
    · cases hc
    · cases hc
    · cases hf
  · rcases hcases with ⟨e, hc⟩ | ⟨q, u, rfl, hw, hp⟩
    · obtain ⟨g, hgs, hpush⟩ := hn.owes hc (Bool.eq_false_iff.mpr hflag)
      exact Or.inl ⟨[], g, e, by rw [hgs]; rfl, hpush⟩
    · -- the critical section of `TaskStorage::poll` sets the flag and links the task
      refine Or.inr ?_
      cases hn with
      | call hu _ => cases hu
      | notify hnot =>
        rcases Shared.notifyLocked_some hnot with ⟨hnone, -⟩ | ⟨w, hw', hwake⟩
        · rw [hnone] at hw
          cases hw
        · obtain rfl : w = t := Option.some.inj (hw'.symm.trans hw)
          have hptr : ((k.shared.despawned u).tasks w).executorPtr = k.shared.ptr w :=
            congrFun (Shared.despawned_ptr k.shared u) w
          have hfl : ((k.shared.despawned u).tasks w).state.runQueued = k.shared.flag w :=
            congrFun (Shared.despawned_flag k.shared u) w
          rcases Shared.wakeLocked_some hwake with ⟨hnull, -⟩ | ⟨e, -, ⟨hset, -⟩ | ⟨-, bm, -, rfl⟩⟩
          · rw [hptr] at hnull
            rw [hnull] at hp
            cases hp
          · rw [hfl] at hset
            exact absurd hset hflag
          · refine ⟨e, ?_⟩
            show w ∈ update k.shared.queue e (k.shared.queue e ++ [w]) e
            rw [update_self]
            exact List.mem_append_right _ (List.mem_singleton_self w)

/-- Until the task is dequeued, an activation that is through with its attempt
has linked it. -/
theorem linked_of_pushing {t : T} {k k' : Kernel N T V} {g : Frame N T V}
    {fs : List (Frame N T V)} (h : Pushing t fs k)
    (hsteps : Steps step (fun k _ => ¬ k.Dequeues t) k k') (hfr : k'.frames = g :: fs)
    (hg : g.calling = none) : k'.Linked t := by
  have hpush : Pushing t fs k' :=
    hsteps.invariant (I := Pushing t fs) (fun _ _ _ hp hd hs => hp.next hd hs) h
  refine hpush.resolve_left ?_
  rintro ⟨hs, g', e, hfr', hpg⟩
  rw [hfr] at hfr'
  cases hs with
  | nil =>
    obtain ⟨rfl, -⟩ := List.cons.inj hfr'
    rw [Frame.push, hg] at hpg
    cases hpg
  | cons h hs =>
    have hlen := congrArg List.length hfr'
    simp only [List.length_cons, List.length_append] at hlen
    omega

/-- **A skipped enqueue is redundant**, and every attempt that is over has its
task counted until the next dequeue, in a run, exactly when no enqueuer of the
run skips a task that another activation has flagged and not pushed yet. -/
theorem skip_redundant_iff (es : List (Event T V)) :
    Along step Redundant (init : Kernel N T V) es ∧ WakesCounted (N := N) es ↔
      Along step SkipOk (init : Kernel N T V) es := by
  have hiff : Along step Redundant (init : Kernel N T V) es ↔ Along step SkipOk init es :=
    along_congr (fun _ ev hr => redundant_iff hr ev) es (.refl _)
  rw [hiff, and_iff_left_iff_imp]
  intro hok k k₁ k' es₁ es₂ es₃ t f g fs hes hk hatt hfr hk₁ hk' hno hfr' hg
  have hr : Reachable k := reach_of_exec es₁ hk
  have hr₁ : Reachable k₁ := hr.tail trivial hk₁
  have hokk : k.SkipOk .tick := (hes ▸ hok).of_exec hk hk₁
  rcases hatt with hatt | hearly
  · have hpush : Pushing t fs k₁ :=
      pushing_of_attempts hr hatt (fun hflag => hokk t ⟨rfl, Or.inl ⟨hatt, hflag⟩⟩) hfr hk₁
    have hsteps := hno.steps hk'
    have hr' : Reachable k' := hr₁.trans (hsteps.mono fun _ _ _ => trivial)
    exact (counted_iff hr' t).mpr (linked_of_pushing hpush hsteps hfr' hg)
  · exact absurd (hokk t ⟨rfl, Or.inr hearly⟩) (flag_of_loadsEarly (balanced hr) hearly).2

/-- Two tasks are polled once, `false` at priority 0 and `true` at priority 1.
A wake of `false` is interrupted between its `fetch_or` and its push, and the
interrupt handler wakes `false` too. -/
def interrupted : List (Event Bool Unit) :=
  List.flatten [Event.spawnTask ⟨0⟩ false, Event.spawnTask ⟨1⟩ true, [.setMie true],
    Event.machineSoft, [.tick, .pending], List.replicate 7 .tick, [.tick, .pending],
    List.replicate 5 .tick, [.call (.wake false), .tick, .tick, .trapIsr, .call (.wake false),
    .tick]]

/-- The handler's wake of `false` is over, and it wakes `true`. -/
def goesOn : List (Event Bool Unit) :=
  .tick :: .call (.wake true) :: List.replicate 5 .tick

set_option synthInstance.maxSize 1000 in
/-- The handler's wake of `false` finds the flag set and returns; then
`try_preempt` takes the lower priority of `true` for the highest. -/
theorem skip_hides_wake : ∃ k k' : Kernel 2 Bool Unit,
    exec step init interrupted = some k ∧ k.Skips .tick false ∧ ¬ k.Counted false ∧
    exec step k goesOn = some k' ∧ k'.frames = [.isr none, .base (some (.wakePush false 0))] ∧
    k'.shared.ptr false = some 0 ∧ k'.shared.bitmap.highest = some (some 1) ∧
    ¬(Along step Redundant (init : Kernel 2 Bool Unit) (interrupted ++ goesOn) ∧
      WakesCounted (N := 2) (interrupted ++ goesOn)) := by
  have hobs : ((exec step (init : Kernel 2 Bool Unit) interrupted).bind fun k =>
      (exec step k goesOn).map fun k' => (k.frames, k.shared.flag false, k'.frames,
        k'.shared.ptr false, k'.shared.bitmap.highest)) =
      some ([.isr (some (.wakeFlag false 0)), .base (some (.wakePush false 0))], true,
        [.isr none, .base (some (.wakePush false 0))], some 0, some (some 1)) := by decide +kernel
  obtain ⟨k, hk, hobs⟩ := Option.bind_eq_some_iff.mp hobs
  obtain ⟨k', hk', hobs⟩ := Option.map_eq_some_iff.mp hobs
  obtain ⟨hfr, hobs⟩ := Prod.mk.inj hobs
  obtain ⟨hflag, hobs⟩ := Prod.mk.inj hobs
  obtain ⟨hfr', hobs⟩ := Prod.mk.inj hobs
  obtain ⟨hptr, hhigh⟩ := Prod.mk.inj hobs
  have hskip : k.Skips .tick false :=
    ⟨rfl, Or.inl ⟨⟨_, _, hfr, Or.inl ⟨0, Or.inl rfl⟩⟩, hflag⟩⟩
  have hno : ¬ k.Counted false := by
    rw [counted_iff_of_skips (reach_of_exec _ hk) hskip, hfr]
    decide
  refine ⟨k, k', hk, hskip, hno, hk', hfr', hptr, hhigh, fun hall => ?_⟩
  obtain ⟨k₁, hk₁, -⟩ := Option.bind_eq_some_iff.mp hk'
  exact hno (hall.1.of_exec hk hk₁ false hskip)

end Kernel
end RtAsync

/-
# Preemption is a call

A `MachineSoft` that finds the marker set runs what is more urgent than the
activation that it interrupts, and nothing else, and it does not return before
all of it has run: for that activation the interrupt is like a call of the more
urgent executors. So a task that is spawned at a more urgent priority has been
polled when its spawner goes on.

The marker stays set up to the swap, since the hook runs with interrupts
disabled; from then on `MachineSoft` goes round its loop, and leaves it where
`try_preempt` finds nothing.

Key definitions: `Frame.Serves`, `Kernel.Serving`.
Key theorems: `Next.serves`, `Kernel.Serving.of_exec`, `Kernel.preempted_first`.
-/
import RtAsync.Lib.Potential
import RtAsync.Executor.Pend
import RtAsync.Executor.Fifo

namespace RtAsync

open Function (update update_self update_of_ne)
open Transition (Always exec)

variable {N : ℕ} {T V : Type}

/-- A `MachineSoft` that will find the marker set, or has found it; where it
returns, nothing is left to preempt for. -/
def Frame.Serves (s : Shared N T V) : Frame N T V → Prop
  | .base _ => False
  | .isr _ => False
  | .hook _ => s.pendMarker = true
  | .swap => s.pendMarker = true
  | .clear sys => sys = true
  | .mret => ¬s.Behind
  | _ => True

/-- It lies on top of `fs`. -/
def Kernel.Serving (fs : List (Frame N T V)) (k : Kernel N T V) : Prop :=
  ∃ gs g, k.frames = gs ++ g :: fs ∧ g.Serves k.shared

/-- While others run on top of it, nothing that it reads matters. -/
theorem Frame.Serves.paused {s : Shared N T V} {g : Frame N T V} (h : g.Serves s)
    (hi : g.interruptible = true) (s' : Shared N T V) : g.Serves s' := by
  cases g with
  | base c => cases h
  | isr c => cases h
  | run e r => trivial
  | disable e => trivial
  | _ => cases hi

section Step

variable [DecidableEq T] {s s' : Shared N T V} {f : Frame N T V} {ev : Event T V}
  {fs gs : List (Frame N T V)}

theorem callStep_marker {c : Call N T} {c' : Option (Call N T)}
    (h : callStep s c = some (s', c')) (hm : s.pendMarker = true) : s'.pendMarker = true := by
  cases callStep_next h with
  | pendMark => rfl
  | spawnPend => rfl
  | _ => exact hm

theorem Next.serves (h : Next s f ev s' gs) (hf : f.Serves s)
    (hm : Kernel.Masked ⟨s, f :: fs⟩) (hn : Nested ⟨s, f :: fs⟩) (hb : BitmapOk s) :
    gs = [] ∨ ∃ hs g, gs = hs ++ [g] ∧ g.Serves s' := by
  have hcall : ∀ {c c' : Option (Call N T)}, f.user = some c →
      (s.pendMarker = true → s'.pendMarker = true) → (f.setCall c').Serves s' :=
    fun {c c'} hu hmark => by
      rcases Frame.user_cases hu with rfl | rfl | rfl | ⟨e, t, rfl⟩ | ⟨e, t, rfl⟩
      · cases hf
      · cases hf
      · exact hmark hf
      · trivial
      · trivial
  have hpaused : s.mie = true → f.Serves s' := fun hmie => hf.paused (hm.head f fs rfl hmie) s'
  have hone : ∀ {g : Frame N T V}, g.Serves s' → [g] = [] ∨ ∃ hs g', [g] = hs ++ [g'] ∧ g'.Serves s' :=
    fun {g} hg => Or.inr ⟨[], g, rfl, hg⟩
  cases h with
  | call hu hc => exact hone (hcall hu (callStep_marker hc))
  | begin hu hc =>
    obtain ⟨⟨tk, rfl⟩, -⟩ := callStart_shared hc
    exact hone (hcall hu id)
  | setMie b hu hi => exact hone (hf.paused hi _)
  | trapSoft hmie _ => exact Or.inr ⟨[.hook none], f, rfl, hpaused hmie⟩
  | trapIsr hmie => exact Or.inr ⟨[.isr none], f, rfl, hpaused hmie⟩
  | external =>
    refine hone ?_
    cases f <;> exact hf
  | isrRet => exact Or.inl rfl
  | mret => exact Or.inl rfl
  | hookRet => exact hone hf
  | swap => exact hone hf
  | clear sys =>
    obtain rfl : sys = true := hf
    exact hone trivial
  | noPreempt hno => exact hone fun ⟨p, hp⟩ => absurd (hn.room hb hp) (Nat.not_lt.mpr (hno ⟨p, hp⟩))
  | _ => exact hone trivial

theorem Next.stays_queued {e : Fin N} {t : T} (h : Next s f ev s' gs) (ht : t ∈ s.queue e) :
    t ∈ s'.queue e ∨ gs = [.run e (.got t)] := by
  cases h.turnEffect with
  | keep _ _ hq _ => exact Or.inl (by rwa [hq])
  | push u q _ _ _ hq _ _ => 
    rw [hq]
    by_cases hqe : e = q
    · subst hqe
      rw [update_self]
      exact Or.inl (List.mem_append_left _ ht)
    · rw [update_of_ne hqe]
      exact Or.inl ht
  | dequeue q u us _ _ hgs hqu hq =>
    rw [hq]
    by_cases hqe : e = q
    · subst hqe
      rw [hqu] at ht
      rw [update_self]
      rcases List.mem_cons.mp ht with rfl | ht
      · exact Or.inr hgs
      · exact Or.inl ht
    · rw [update_of_ne hqe]
      exact Or.inl ht
  | got _ _ _ _ hq _ => exact Or.inl (by rwa [hq])

end Step

namespace Kernel

variable [DecidableEq T]

theorem Serving.next {fs : List (Frame N T V)} {k k' : Kernel N T V} {ev : Event T V}
    (hk : k.Serving fs) (h : Reachable k) (hs : step k ev = some k') :
    k'.Serving fs ∨ k'.frames = fs := by
  obtain ⟨hb, hn⟩ := nested h
  have hm := masked h
  obtain ⟨gs, g, hfr, hg⟩ := hk
  obtain ⟨f, fs', s', hs', hk, rfl, hnext⟩ := step_next hs
  have hcons : f :: fs' = gs ++ g :: fs := (congrArg Kernel.frames hk).symm.trans hfr
  rw [hk] at hn hm
  cases gs with
  | nil =>
    obtain ⟨rfl, rfl⟩ := List.cons.inj hcons
    rcases hnext.serves hg hm hn hb with rfl | ⟨ls, g', rfl, hg'⟩
    · exact Or.inr rfl
    · exact Or.inl ⟨ls, g', by simp, hg'⟩
  | cons x gs =>
    obtain ⟨rfl, rfl⟩ := List.cons.inj hcons
    have hi : g.interruptible = true :=
      hm.tail f (gs ++ g :: fs) rfl g (List.mem_append_right _ List.mem_cons_self)
    exact Or.inl ⟨hs' ++ gs, g, (List.append_assoc ..).symm, hg.paused hi s'⟩

theorem Serving.of_exec {fs : List (Frame N T V)} : ∀ {es : List (Event T V)} {k k' : Kernel N T V},
    k.Serving fs → Reachable k → Always step (fun k => fs.length < k.frames.length) k es →
    exec step k es = some k' → k'.Serving fs
  | [], k, k', hk, _, _, he => by
    simp only [exec, Option.some.injEq] at he
    exact he ▸ hk
  | ev :: es, k, k', hk, h, hin, he => by
    obtain ⟨k₁, hs, he⟩ := Option.bind_eq_some_iff.mp he
    have hin' := hin.2 k₁ hs
    rcases hk.next h hs with hk₁ | hout
    · exact hk₁.of_exec (h.tail trivial hs) hin' he
    · have hlt := hin'.start
      rw [hout] at hlt
      exact absurd hlt (Nat.lt_irrefl _)

omit [DecidableEq T] in
theorem Serving.urgent {fs : List (Frame N T V)} {k : Kernel N T V} (hk : k.Serving fs)
    (hn : Nested k) {e : Fin N} {r : RunPc N T V} {gs : List (Frame N T V)}
    (hfr : k.frames = .run e r :: gs) : ∀ q ∈ fs.filterMap Frame.token, e.val < q.value := by
  intro q hq
  obtain ⟨hs, g, hfr', -⟩ := hk
  have hsorted := hn.sorted
  rw [hn.mirror, hfr, List.filterMap_cons_some (by rfl : (Frame.run e r).token = some ⟨e⟩)] at hsorted
  have hmem : q ∈ gs.filterMap Frame.token := by
    rw [hfr] at hfr'
    cases hs with
    | nil =>
      obtain ⟨-, rfl⟩ := List.cons.inj hfr'
      exact hq
    | cons x hs =>
      obtain ⟨-, rfl⟩ := List.cons.inj hfr'
      obtain ⟨f, hf, hft⟩ := List.mem_filterMap.mp hq
      exact List.mem_filterMap.mpr
        ⟨f, List.mem_append_right _ (List.mem_cons_of_mem _ hf), hft⟩
  exact (List.pairwise_cons.mp hsorted).1 q hmem

/-- Where it returns, the more urgent queues are empty. -/
theorem Serving.drained {fs : List (Frame N T V)} {k : Kernel N T V} (hk : k.Serving fs)
    (h : Reachable k) (hret : k.frames = .mret :: fs) {e : Fin N}
    (he : ∀ q ∈ fs.filterMap Frame.token, e.val < q.value) : k.shared.queue e = [] := by
  obtain ⟨hb, hn⟩ := nested h
  by_contra hne
  obtain ⟨hs, g, hfr, hg⟩ := hk
  rw [hret] at hfr
  obtain ⟨p, hp, hle⟩ := PriorityBitmap.highest_of_mem hb.wf ((coherent h).set e hne)
  have hstack : k.shared.prioStack = fs.filterMap Frame.token := by
    rw [hn.mirror, hret]
    rfl
  have hbehind : k.shared.Behind := by
    refine ⟨p, hp, fun q hq => ?_⟩
    rw [hstack] at hq
    exact Nat.lt_of_le_of_lt hle (he q (List.mem_of_mem_head? hq))
  cases hs with
  | nil =>
    obtain ⟨rfl, -⟩ := List.cons.inj hfr
    exact hg hbehind
  | cons x hs =>
    have hlen : fs.length = (hs ++ g :: fs).length := congrArg List.length (List.cons.inj hfr).2
    rw [List.length_append, List.length_cons] at hlen
    omega

/-- **Preemption is a call.** Let `MachineSoft` be entered with the marker set,
and be about to return, after any run in which it has not returned. Then only
executors more urgent than the interrupted activation have run; their queues
are empty; and every task that was in one of them has been dequeued by its
executor to be polled. -/
theorem preempted_first {k k' : Kernel N T V} (h : Reachable k) {fs : List (Frame N T V)}
    (hk : k.frames = .hook none :: fs) (hmark : k.shared.pendMarker = true)
    {es : List (Event T V)} (hin : Always step (fun k => fs.length < k.frames.length) k es)
    (he : exec step k es = some k') (hret : k'.frames = .mret :: fs) :
    (∀ es₁ es₂ k₁, es = es₁ ++ es₂ → exec step k es₁ = some k₁ → ∀ e r gs,
      k₁.frames = .run e r :: gs → ∀ q ∈ k.shared.prioStack, e.val < q.value) ∧
    ∀ e : Fin N, (∀ q ∈ k.shared.prioStack, e.val < q.value) → k'.shared.queue e = [] ∧
      ∀ t ∈ k.shared.queue e, ∃ es₁ es₂ k₁ gs, es = es₁ ++ es₂ ∧ exec step k es₁ = some k₁ ∧
        k₁.frames = .run e (.got t) :: gs := by
  have hserve : k.Serving fs := ⟨[], .hook none, hk, hmark⟩
  have hstack : k.shared.prioStack = fs.filterMap Frame.token := by
    rw [(nested h).2.mirror, hk]
    rfl
  have hreach : ∀ {es₁ : List (Event T V)} {k₁ : Kernel N T V}, exec step k es₁ = some k₁ →
      Reachable k₁ := fun he₁ => h.trans (Transition.reach_of_exec _ he₁)
  rw [hstack]
  refine ⟨?_, fun e hurgent => ?_⟩
  · rintro es₁ es₂ k₁ rfl he₁ e r gs hfr
    exact (hserve.of_exec h hin.left he₁).urgent (nested (hreach he₁)).2 hfr
  · have hempty : k'.shared.queue e = [] :=
      (hserve.of_exec h hin he).drained (hreach he) hret hurgent
    refine ⟨hempty, fun t ht => ?_⟩
    have hkeep : ∀ (k : Kernel N T V) ev k', step k ev = some k' → t ∈ k.shared.queue e →
        t ∈ k'.shared.queue e ∨ ∃ gs, k'.frames = .run e (.got t) :: gs := fun k ev k' hs hmem => by
      obtain ⟨f, fs, s', gs, -, rfl, hnext⟩ := step_next hs
      refine (hnext.stays_queued hmem).imp_right fun hgs => ⟨fs, ?_⟩
      rw [hgs]
      rfl
    obtain ⟨es₁, es₂, k₁, rfl, he₁, gs, hfr⟩ :=
      Transition.exec_between hkeep he ht (by simp [hempty])
    exact ⟨es₁, es₂, k₁, gs, rfl, he₁, hfr⟩

/-- Executor 1 polls a task that spawns another one for executor 0. -/
theorem preempted_first_two : ∃ k k' : Kernel 2 Bool Unit, ∃ es,
    exec step k es = some k' ∧ k.shared.prioStack = [⟨1⟩] ∧ k.shared.queue 0 = [true] ∧
      ∃ es₁ es₂ k₁ gs, es = es₁ ++ es₂ ∧ exec step k es₁ = some k₁ ∧
        k₁.frames = .run 0 (.got true) :: gs := by
  let es₀ : List (Event Bool Unit) := .setMie true :: Event.spawnTask ⟨1⟩ false ++
    Event.machineSoft ++ [.tick] ++ Event.spawnTask ⟨0⟩ true ++ [.trapSoft]
  let es : List (Event Bool Unit) :=
    .ret :: List.replicate 7 .tick ++ .pending :: List.replicate 4 .tick
  let fs : List (Frame 2 Bool Unit) := [.run 1 (.poll false none), .base none]
  have hentered : (exec step (init : Kernel 2 Bool Unit) es₀).map
      (fun k => (k.frames, k.shared.pendMarker, k.shared.prioStack, k.shared.queue 0)) =
        some (.hook none :: fs, true, [⟨1⟩], [true]) := by decide +kernel
  have hwithin : (exec step (init : Kernel 2 Bool Unit) es₀).all (fun k =>
      decide (Always step (fun k => fs.length < k.frames.length) k es)) = true := by decide +kernel
  have hreturns : (exec step (init : Kernel 2 Bool Unit) (es₀ ++ es)).map Kernel.frames =
      some (.mret :: fs) := by decide +kernel
  obtain ⟨k, hk, hobs⟩ := Option.map_eq_some_iff.mp hentered
  obtain ⟨k', hk', hret⟩ := Option.map_eq_some_iff.mp hreturns
  simp only [Prod.mk.injEq] at hobs
  obtain ⟨hfr, hmark, hstack, hq⟩ := hobs
  rw [Transition.exec_append, hk, Option.bind_some] at hk'
  rw [hk] at hwithin
  have hurgent : ∀ q ∈ k.shared.prioStack, (0 : Fin 2).val < q.value := by
    rw [hstack]
    decide
  have hfirst := preempted_first (Transition.reach_of_exec _ hk) hfr hmark
    (of_decide_eq_true hwithin) hk' hret
  exact ⟨k, k', es, hk', hstack, hq, (hfirst.2 0 hurgent).2 true (by rw [hq]; exact List.mem_cons_self)⟩

end Kernel
end RtAsync

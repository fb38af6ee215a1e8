/-
# The hart comes to rest

When nothing comes from outside any more (every future returns `Pending`,
every handler returns), the steps that are left are bounded by `Kernel.cost`,
and there is a step to make unless the hart is idle: `main` lies at the bottom
of the stack, so an activation on top of it has an access to make or returns.
In the idle loop with interrupts enabled no task is left in a queue, nor
flagged as queued, and every task that was flagged at some moment before has
been dequeued since.

Key definitions: `Kernel.Grounded`, `Kernel.Idle`, `Kernel.Unmasked`.
Key theorems: `Grounded.next`, `Next.stays_flagged`, `Kernel.goes_on`,
`Kernel.idle_drained`, `Kernel.fetched_between`, `Kernel.settles`.
-/
import RtAsync.Executor.Work

namespace RtAsync

open Function (update_self update_of_ne)
open Transition (exec reach_of_exec)

variable {N : ℕ} {T V : Type}

/-! ### The bottom of the stack -/

/-- `main` and the idle loop. -/
def Frame.isBase : Frame N T V → Bool
  | base _ => true
  | _ => false

theorem Frame.setCall_isBase {f : Frame N T V} (c : Option (Call N T)) :
    (f.setCall c).isBase = f.isBase := by
  unfold setCall
  split <;> rfl

/-- `main` lies at the bottom, and nowhere else. -/
def Kernel.Grounded (k : Kernel N T V) : Prop :=
  ∃ fs c, k.frames = fs ++ [.base c] ∧ ∀ f ∈ fs, f.isBase = false

/-- The idle loop, and no software interrupt to take. -/
structure Kernel.Idle (k : Kernel N T V) : Prop where
  frames : k.frames = [.base none]
  quiet : ¬(k.shared.mie = true ∧ k.shared.msip = true)

/-- The interrupts are enabled, or will be where `main` goes on. -/
def Kernel.Unmasked (k : Kernel N T V) : Prop := k.shared.mie = true ∨ 1 < k.frames.length

section Step

variable [DecidableEq T] {s s' : Shared N T V} {f : Frame N T V} {ev : Event T V}
  {fs gs : List (Frame N T V)}

theorem Next.not_base (h : Next s f ev s' gs) (hf : f.isBase = false) :
    ∀ g ∈ gs, g.isBase = false := by
  intro g hg
  rcases h.mem_frames hg with rfl | rfl | rfl | rfl
  · exact hf
  · rfl
  · rfl
  · cases h with
    | call hu hc => rwa [Frame.setCall_isBase]
    | begin hu hc => rwa [Frame.setCall_isBase]
    | clear sys => cases sys <;> rfl
    | setMie => exact hf
    | external => exact hf
    | _ => rfl

theorem Next.base {c : Option (Call N T)} (h : Next s (.base c) ev s' gs) :
    ∃ fs c', gs = fs ++ [.base c'] ∧ ∀ g ∈ fs, g.isBase = false := by
  cases h with
  | @call _ _ _ c' hu hc => exact ⟨[], c', rfl, List.forall_mem_nil _⟩
  | @begin _ _ _ c' hu hc => exact ⟨[], some c', rfl, List.forall_mem_nil _⟩
  | setMie b hu hi => exact ⟨[], c, rfl, List.forall_mem_nil _⟩
  | external => exact ⟨[], c, rfl, List.forall_mem_nil _⟩
  | trapSoft => exact ⟨[.hook none], c, rfl, List.forall_mem_singleton.mpr rfl⟩
  | trapIsr => exact ⟨[.isr none], c, rfl, List.forall_mem_singleton.mpr rfl⟩

theorem Kernel.Grounded.next (hk : Kernel.Grounded ⟨s, f :: fs⟩) (h : Next s f ev s' gs) :
    Kernel.Grounded ⟨s', gs ++ fs⟩ := by
  obtain ⟨hs, c, hfr, hs'⟩ := hk
  cases hs with
  | nil =>
    obtain ⟨rfl, rfl⟩ := List.cons.inj hfr
    rw [List.append_nil]
    exact h.base
  | cons f' hs =>
    obtain ⟨rfl, rfl⟩ := List.cons.inj hfr
    refine ⟨gs ++ hs, c, (List.append_assoc ..).symm, fun g hg => ?_⟩
    rcases List.mem_append.mp hg with hg | hg
    · exact h.not_base (hs' f List.mem_cons_self) g hg
    · exact hs' g (List.mem_cons_of_mem _ hg)

omit [DecidableEq T] in
theorem Kernel.Grounded.above (hk : Kernel.Grounded ⟨s, f :: fs⟩) (hf : f.isBase = false) :
    fs ≠ [] := by
  rintro rfl
  obtain ⟨hs, c, hfr, -⟩ := hk
  obtain ⟨rfl, hsingle⟩ := List.append_eq_singleton_iff.mp hfr.symm |>.resolve_right (by simp)
  obtain ⟨rfl, -⟩ := List.cons.inj hsingle
  cases hf

/-- The handlers enable interrupts again where they return. -/
theorem Kernel.Unmasked.next (hk : Kernel.Unmasked ⟨s, f :: fs⟩)
    (hground : Kernel.Grounded ⟨s, f :: fs⟩) (h : Next s f ev s' gs)
    (hev : ev.isInput = false) : Kernel.Unmasked ⟨s', gs ++ fs⟩ := by
  have hsame : ∀ {g : Frame N T V}, s'.mie = s.mie → Kernel.Unmasked ⟨s', [g] ++ fs⟩ := by
    intro g hmie
    unfold Kernel.Unmasked at *
    rw [hmie]
    simpa using hk
  cases h with
  | call hu hc => exact hsame (callStep_stack hc).2
  | notify hn => exact hsame (notifyLocked_stack hn).2
  | trapSoft => exact Or.inr (by simp)
  | isrRet => exact Or.inl rfl
  | mret => exact Or.inl rfl
  | enable => exact Or.inl rfl
  | disable e =>
    have hpos := List.length_pos_iff.mpr (hground.above rfl)
    exact Or.inr (by simpa using hpos)
  | begin => cases hev
  | setMie => cases hev
  | trapIsr => cases hev
  | external => cases hev
  | ready => cases hev
  | _ => exact hsame rfl

theorem Next.stays_flagged {t : T} (h : Next s f ev s' gs) (ht : s.flag t = true) :
    s'.flag t = true ∨ ∃ e, gs = [.run e (.got t)] := by
  cases h.queueEffect with
  | keep _ _ hf _ _ => exact Or.inl (by rw [hf]; exact ht)
  | flag u e f' _ _ _ _ hu _ hf _ _ =>
    have hne : t ≠ u := fun he => by simp [he, hu] at ht
    exact Or.inl (by rw [hf, update_of_ne hne]; exact ht)
  | push u e f' _ _ _ _ _ hf _ _ => exact Or.inl (by rw [hf]; exact ht)
  | wake u e q v _ _ _ hu _ _ hf _ _ =>
    have hne : t ≠ u := fun he => by simp [he, hu] at ht
    exact Or.inl (by rw [hf, update_of_ne hne]; exact ht)
  | storeNull u q _ _ _ _ hf _ _ => exact Or.inl (by rw [hf]; exact ht)
  | drained e _ _ _ _ _ hf _ _ => exact Or.inl (by rw [hf]; exact ht)
  | dequeue u us e _ _ hgs _ _ hf _ _ =>
    by_cases he : t = u
    · exact Or.inr ⟨e, by rw [hgs, he]⟩
    · exact Or.inl (by rw [hf, update_of_ne he]; exact ht)

end Step

namespace Kernel

variable [DecidableEq T]

theorem grounded {k : Kernel N T V} (h : Reachable k) : Grounded k := by
  refine h.invariant (I := Grounded) ?_ ⟨[], none, rfl, List.forall_mem_nil _⟩
  intro k ev k' hk hstep
  obtain ⟨f, fs, s', gs, he, rfl, hnext⟩ := step_next hstep
  rw [he] at hk
  exact hk.next hnext

theorem Unmasked.of_exec {k k' : Kernel N T V} {es : List (Event T V)} (hk : Unmasked k)
    (h : Reachable k) (hes : ∀ ev ∈ es, ev.isInput = false) (he : exec step k es = some k') :
    Unmasked k' := by
  induction es generalizing k with
  | nil =>
    obtain rfl := Option.some.inj he
    exact hk
  | cons ev es ih =>
    obtain ⟨k₁, hk₁, he⟩ := Option.bind_eq_some_iff.mp he
    have hground := grounded h
    have h₁ : Reachable k₁ := h.tail trivial hk₁
    obtain ⟨f, fs, s', gs, hfr, rfl, hnext⟩ := step_next hk₁
    rw [hfr] at hk hground
    exact ih (hk.next hground hnext (hes ev List.mem_cons_self)) h₁
      (fun e hmem => hes e (List.mem_cons_of_mem ev hmem)) he

/-! ### Progress -/

theorem return_isSome {s : Shared N T V} {f : Frame N T V} (hu : f.user = some none)
    (hf : f.isBase = false) : ∃ ev : Event T V, ev.isInput = false ∧ (frameStep s f ev).isSome := by
  rcases Frame.user_cases hu with rfl | rfl | rfl | ⟨e, t, rfl⟩ | ⟨e, t, rfl⟩
  · cases hf
  · exact ⟨.ret, rfl, rfl⟩
  · exact ⟨.ret, rfl, rfl⟩
  · exact ⟨.pending, rfl, rfl⟩
  · exact ⟨.ret, rfl, rfl⟩

theorem goes_on (hN : N ≤ 4096) {k : Kernel N T V} (h : Reachable k) (hk : ¬k.Idle) :
    ∃ ev k', ev.isInput = false ∧ step k ev = some k' := by
  obtain ⟨s, frames⟩ := k
  have hgo : ∀ {f : Frame N T V} {fs} ev, frames = f :: fs → ev.isInput = false →
      (frameStep s f ev).isSome → ∃ ev k', ev.isInput = false ∧ step ⟨s, frames⟩ ev = some k' := by
    intro f fs ev hfr hev hsome
    obtain ⟨⟨s', gs⟩, hs⟩ := Option.isSome_iff_exists.mp hsome
    exact ⟨ev, ⟨s', gs ++ fs⟩, hev, by simp [step, hfr, hs]⟩
  obtain ⟨hs, c, hfr, hs'⟩ := grounded h
  have hfr : frames = hs ++ [.base c] := hfr
  obtain ⟨f, fs, rfl⟩ : ∃ f fs, frames = f :: fs := by
    rw [hfr]
    cases hs with
    | nil => exact ⟨_, _, rfl⟩
    | cons f hs => exact ⟨_, _, rfl⟩
  by_cases hu : f.user = some none
  · cases hs with
    | cons g hs =>
      obtain ⟨rfl, -⟩ := List.cons.inj hfr
      obtain ⟨ev, hev, hsome⟩ := return_isSome (s := s) hu (hs' f List.mem_cons_self)
      exact hgo ev rfl hev hsome
    | nil =>
      obtain ⟨rfl, rfl⟩ := List.cons.inj hfr
      obtain rfl : c = none := Option.some.inj hu
      -- the idle loop, so the software interrupt can be taken
      have htake : s.mie = true ∧ s.msip = true := by
        by_contra hquiet
        exact hk ⟨rfl, hquiet⟩
      exact hgo .trapSoft rfl rfl (by simp [frameStep, htake.1, htake.2])
  · exact hgo .tick rfl rfl (tick_isSome hN (nested h).1 (nested h).2 (launched h) hu)

/-! ### At rest -/

theorem idle_drained {k : Kernel N T V} (h : Reachable k) (hk : k.Idle)
    (hmie : k.shared.mie = true) (e : Fin N) : k.shared.queue e = [] := by
  by_contra hne
  obtain ⟨hb, hn⟩ := nested h
  obtain ⟨p, hp, -⟩ := PriorityBitmap.highest_of_mem hb.wf ((coherent h).set e hne)
  have hstack : k.shared.prioStack = [] := by
    rw [hn.mirror, hk.frames]
    rfl
  have hbehind : k.shared.Behind := ⟨p, hp, by simp [hstack]⟩
  have hcalls : ∀ f ∈ k.frames, f.calling = none := fun f hf => by
    rw [hk.frames] at hf
    rw [List.mem_singleton.mp hf]
    rfl
  cases owing h hbehind with
  | pending hmsip hmark => exact hk.quiet ⟨hmie, hmsip⟩
  | deciding f hf hd =>
    unfold Frame.deciding at hd
    rw [hcalls f hf] at hd
    simp at hd
  | sending f hf hs hmark =>
    rw [hcalls f hf] at hs
    cases hs
  | scheduling f fs hf hs =>
    obtain ⟨rfl, -⟩ := List.cons.inj (hk.frames.symm.trans hf)
    rcases hs with hs | hs
    · cases hs
    · cases hs

/-- A flagged task is in a queue, or its push is owed. -/
theorem idle_unflagged {k : Kernel N T V} (h : Reachable k) (hk : k.Idle)
    (hmie : k.shared.mie = true) (t : T) : k.shared.flag t = false := by
  have hlinks : k.shared.links t = 0 := by
    unfold Shared.links
    simp [idle_drained h hk hmie]
  have howed : owed k.frames t = 0 := by
    rw [hk.frames]
    rfl
  have hbal := balanced h t
  rw [hlinks, howed] at hbal
  exact (Bool.toNat_eq_zero).mp hbal.symm

/-- The flag of a task is clear again where its executor has dequeued it. -/
theorem fetched_between {k k' : Kernel N T V} {es : List (Event T V)}
    (he : exec step k es = some k') {t : T} (ht : k.shared.flag t = true)
    (ht' : k'.shared.flag t = false) :
    ∃ es₁ es₂ k₁, es = es₁ ++ es₂ ∧ exec step k es₁ = some k₁ ∧
      ∃ e fs, k₁.frames = .run e (.got t) :: fs := by
  refine Transition.exec_between (P := fun k : Kernel N T V => k.shared.flag t = true)
    (Q := fun k : Kernel N T V => ∃ e fs, k.frames = .run e (.got t) :: fs)
    (fun k ev k' hs hflag => ?_) he ht (by simp [ht'])
  obtain ⟨f, fs, s', gs, hk, rfl, hnext⟩ := step_next hs
  refine (hnext.stays_flagged hflag).imp_right fun ⟨e, hgs⟩ => ⟨e, fs, ?_⟩
  rw [hgs]
  rfl

/-- **The hart comes to rest.** From a reachable state, a run without inputs
has at most as many steps as there is work. Unless the hart is idle there is a
step to make, so some such run ends in the idle loop; with interrupts enabled
there, if they were enabled or an activation was on top of `main`. And where
any run ends in the idle loop with interrupts enabled, no task is in a queue
or flagged as queued, and each task that was flagged before has been dequeued
to be polled. -/
theorem settles (hN : N ≤ 4096) {k : Kernel N T V} (h : Reachable k) :
    (∀ es k', (∀ ev ∈ es, ev.isInput = false) → exec step k es = some k' →
      es.length + k'.cost ≤ k.cost) ∧
    (¬k.Idle → ∃ ev k', ev.isInput = false ∧ step k ev = some k') ∧
    (∃ es k', (∀ ev ∈ es, ev.isInput = false) ∧ exec step k es = some k' ∧ k'.Idle ∧
      (k.Unmasked → k'.shared.mie = true)) ∧
    (∀ es k', exec step k es = some k' → k'.Idle → k'.shared.mie = true →
      (∀ e, k'.shared.queue e = []) ∧ (∀ t, k'.shared.flag t = false) ∧
      ∀ t, k.shared.flag t = true → ∃ es₁ es₂ k₁, es = es₁ ++ es₂ ∧
        exec step k es₁ = some k₁ ∧ ∃ e fs, k₁.frames = .run e (.got t) :: fs) := by
  refine ⟨fun es k' hes he => pays.work_le h hes he, goes_on hN h, ?_, fun es k' he hk' hmie => ?_⟩
  · obtain ⟨es, k', hes, he, hk'⟩ := pays.reaches_rest
      (fun k hk (hrest : ¬Idle k) => goes_on hN hk hrest) h
    refine ⟨es, k', hes, he, hk', fun hk => ?_⟩
    rcases hk.of_exec h hes he with hmie | hlen
    · exact hmie
    · simp [hk'.frames] at hlen
  · have h' : Reachable k' := h.trans (reach_of_exec es he)
    exact ⟨idle_drained h' hk' hmie, idle_unflagged h' hk' hmie,
      fun t ht => fetched_between he ht (idle_unflagged h' hk' hmie t)⟩

/-- `main` has spawned a task and enabled interrupts. -/
theorem settles_spawned : ∃ k : Kernel 1 Unit Unit, k.shared.queue 0 = [()] ∧
    ∃ es k', (∀ ev ∈ es, ev.isInput = false) ∧ exec step k es = some k' ∧
      k'.shared.queue 0 = [] := by
  obtain ⟨k, hk, hobs⟩ := reachable_of_exec
    (fun k : Kernel 1 Unit Unit => (k.shared.mie, k.shared.queue 0))
    (Event.spawnTask ⟨0⟩ () ++ [.setMie true]) (a := (true, [()])) (by decide +kernel)
  obtain ⟨hmie, hq⟩ := Prod.mk.inj hobs
  obtain ⟨-, -, ⟨es, k', hes, he, hidle, hon⟩, hrest⟩ := settles (by decide) hk
  exact ⟨k, hq, es, k', hes, he, (hrest es k' he hidle (hon (Or.inl hmie))).1 0⟩

end Kernel
end RtAsync

/-
# The priority stack mirrors the nesting of executors

`prio_stack` is the list of the tokens that the activations of `MachineSoft`
hold, innermost first (`Nested.mirror`). `try_preempt` pushes only a priority
higher than the top, so the stack is strictly ordered, it never holds more
than `N` priorities, and no executor is run inside its own `run`.

Key definitions: `BitmapOk`, `Nested`, `Frame.running`.
Key theorems: `Next.tokens`, `BitmapOk.next`, `Kernel.nested`,
`Kernel.prioStack_mirrors_nesting`.
-/
import Mathlib.Data.List.Nodup
import Mathlib.Data.List.NodupEquivFin
import RtAsync.Executor.RunQueue

namespace RtAsync

open Function (update)

variable {N : ℕ} {T V : Type} [DecidableEq T]

/-! ### What steps do to the stack -/

/-- A call leaves the priority stack and the interrupt enable alone. -/
theorem callStep_stack {s s' : Shared N T V} {c : Call N T} {c' : Option (Call N T)}
    (h : callStep s c = some (s', c')) : s'.prioStack = s.prioStack ∧ s'.mie = s.mie := by
  cases callStep_next h with
  | _ => exact ⟨rfl, rfl⟩

theorem notifyLocked_stack {s s' : Shared N T V} {t : T} (h : s.notifyLocked t = some s') :
    s'.prioStack = s.prioStack ∧ s'.mie = s.mie := by
  rcases Shared.notifyLocked_some h with ⟨-, rfl⟩ | ⟨w, -, hw⟩
  · exact ⟨rfl, rfl⟩
  · rcases Shared.wakeLocked_some hw with ⟨-, rfl⟩ | ⟨e, -, ⟨-, rfl⟩ | ⟨-, bm, -, rfl⟩⟩
    · exact ⟨rfl, rfl⟩
    · exact ⟨rfl, rfl⟩
    · exact ⟨rfl, rfl⟩

/-- The stack and the tokens of the activations change together. -/
theorem Next.tokens {s s' : Shared N T V} {f : Frame N T V} {ev : Event T V}
    {gs : List (Frame N T V)} (h : Next s f ev s' gs) :
    (s'.prioStack = s.prioStack ∧ gs.filterMap Frame.token = [f].filterMap Frame.token) ∨
    (∃ p, f = .tryPreempt ∧ s.Preempts p ∧ s.prioStack.length < N ∧
      s' = { s with prioStack := ⟨p⟩ :: s.prioStack } ∧ gs = [.enable ⟨p⟩]) ∨
    (∃ e, f = .completeExecutor e ∧ s' = s.completeExecutor ∧ gs = [.tryPreempt]) := by
  cases h with
  | call hu hc => exact Or.inl ⟨(callStep_stack hc).1, Frame.setCall_tokens _ _⟩
  | begin hu hc =>
    obtain ⟨⟨tk, rfl⟩, -⟩ := callStart_shared hc
    exact Or.inl ⟨rfl, Frame.setCall_tokens _ _⟩
  | clear sys => exact Or.inl ⟨rfl, by cases sys <;> rfl⟩
  | preempt hp hlen => exact Or.inr (Or.inl ⟨_, rfl, hp, hlen, rfl, rfl⟩)
  | notify hn => exact Or.inl ⟨(notifyLocked_stack hn).1, rfl⟩
  | complete e => exact Or.inr (Or.inr ⟨e, rfl, rfl, rfl⟩)
  | _ => exact Or.inl ⟨rfl, rfl⟩

/-! ### The invariants -/

/-- The levels of the bitmap agree, and only executors have bits. -/
structure BitmapOk (s : Shared N T V) : Prop where
  wf : s.bitmap.WF
  lt : ∀ p, s.bitmap.Mem p → p < N

theorem BitmapOk.next {s s' : Shared N T V} {f : Frame N T V} {ev : Event T V}
    {gs : List (Frame N T V)} (hs : BitmapOk s) (h : Next s f ev s' gs) : BitmapOk s' := by
  have hkeep : s'.bitmap = s.bitmap → BitmapOk s' := fun he => ⟨he ▸ hs.wf, he ▸ hs.lt⟩
  have hset : ∀ e : Fin N, s.bitmap.set e = some s'.bitmap → BitmapOk s' := fun e he => by
    refine ⟨PriorityBitmap.set_wf (by decide) hs.wf he, fun p hp => ?_⟩
    rcases (PriorityBitmap.mem_set he p).mp hp with rfl | hp
    · exact e.isLt
    · exact hs.lt p hp
  cases h.queueEffect with
  | keep _ _ _ _ hbm => exact hkeep hbm
  | flag _ _ _ _ _ _ _ _ _ _ _ hbm => exact hkeep hbm
  | push _ e _ _ _ _ _ _ _ _ hbm => exact hset e hbm
  | wake _ e _ _ _ _ _ _ _ _ _ _ hbm => exact hset e hbm
  | storeNull _ _ _ _ _ _ _ _ hbm => exact hkeep hbm
  | dequeue _ _ _ _ _ _ _ _ _ _ hbm => exact hkeep hbm
  | drained e _ _ _ _ _ _ _ hbm =>
    refine ⟨PriorityBitmap.clear_wf (by decide) hs.wf hbm, fun p hp => ?_⟩
    exact hs.lt p ((PriorityBitmap.mem_clear hbm p).mp hp).2

/-- The stack is the tokens of the activations, innermost first, strictly
ordered and below `N`. -/
structure Nested (k : Kernel N T V) : Prop where
  mirror : k.shared.prioStack = k.frames.filterMap Frame.token
  sorted : k.shared.prioStack.Pairwise fun top below => top.value < below.value
  lt : ∀ p ∈ k.shared.prioStack, p.value < N

omit [DecidableEq T] in
theorem Shared.Preempts.lt_stack {s : Shared N T V} {p : ℕ} (hp : s.Preempts p)
    (hs : s.prioStack.Pairwise fun top below => top.value < below.value) :
    ∀ q ∈ s.prioStack, p < q.value := by
  intro q hq
  cases hst : s.prioStack with
  | nil => rw [hst] at hq; cases hq
  | cons top rest =>
    have htop : p < top.value := hp.2 top (by rw [hst]; rfl)
    rw [hst] at hs hq
    rcases List.mem_cons.mp hq with rfl | hq
    · exact htop
    · exact htop.trans ((List.pairwise_cons.mp hs).1 q hq)

theorem Nested.next {s s' : Shared N T V} {f : Frame N T V} {ev : Event T V}
    {fs gs : List (Frame N T V)} (hk : Nested ⟨s, f :: fs⟩) (hb : BitmapOk s)
    (h : Next s f ev s' gs) : Nested ⟨s', gs ++ fs⟩ := by
  obtain ⟨hmirror, hsorted, hlt⟩ := hk
  simp only at hmirror hsorted hlt
  rcases h.tokens with ⟨hst, htok⟩ | ⟨p, rfl, hp, -, rfl, rfl⟩ | ⟨e, rfl, rfl, rfl⟩
  · refine ⟨?_, by rw [hst]; exact hsorted, by rw [hst]; exact hlt⟩
    show s'.prioStack = (gs ++ fs).filterMap Frame.token
    rw [hst, hmirror, List.filterMap_append, htok, ← List.filterMap_append, List.singleton_append]
  · have hmem := (PriorityBitmap.highest_least hb.wf hp.1).1
    refine ⟨?_, List.pairwise_cons.mpr ⟨hp.lt_stack hsorted, hsorted⟩, fun q hq => ?_⟩
    · show _ :: s.prioStack = _
      rw [hmirror]
      rfl
    · rcases List.mem_cons.mp hq with rfl | hq
      · exact hb.lt p hmem
      · exact hlt q hq
  · have htail : s.prioStack.tail = fs.filterMap Frame.token := by
      rw [hmirror]
      rfl
    refine ⟨htail, hsorted.sublist (List.tail_sublist _), fun q hq => ?_⟩
    exact hlt q (List.mem_of_mem_tail hq)

namespace Kernel

omit [DecidableEq T] in
theorem init_bitmapOk : BitmapOk (init (N := N) (T := T) (V := V)).shared :=
  ⟨PriorityBitmap.new_wf, fun p hp => absurd hp (PriorityBitmap.not_mem_new p)⟩

omit [DecidableEq T] in
theorem init_nested : Nested (init (N := N) (T := T) (V := V)) :=
  ⟨rfl, List.Pairwise.nil, fun p hp => by cases hp⟩

theorem nested {k : Kernel N T V} (h : Reachable k) : BitmapOk k.shared ∧ Nested k := by
  refine h.invariant (I := fun k => BitmapOk k.shared ∧ Nested k) ?_ ⟨init_bitmapOk, init_nested⟩
  intro k ev k' ⟨hb, hn⟩ hstep
  obtain ⟨f, fs, s', gs, hk, rfl, hnext⟩ := step_next hstep
  rw [hk] at hn
  exact ⟨hb.next hnext, hn.next hb hnext⟩

end Kernel

/-! ### The stack never fills up -/

omit [DecidableEq T] in
/-- A strictly ordered list of priorities below `N` has at most `N` of them. -/
theorem Nested.length_le {k : Kernel N T V} (hk : Nested k) : k.shared.prioStack.length ≤ N := by
  have hmap : (k.shared.prioStack.map Priority.value).Pairwise (· < ·) :=
    List.pairwise_map.mpr hk.sorted
  have hnd : (k.shared.prioStack.map Priority.value).Nodup := hmap.imp fun h => Nat.ne_of_lt h
  have hsub : k.shared.prioStack.map Priority.value ⊆ List.range N := fun p hp => by
    obtain ⟨q, hq, rfl⟩ := List.mem_map.mp hp
    exact List.mem_range.mpr (hk.lt q hq)
  calc k.shared.prioStack.length = (k.shared.prioStack.map Priority.value).length := by
        rw [List.length_map]
    _ ≤ (List.range N).length := (List.subperm_of_subset hnd hsub).length_le
    _ = N := List.length_range

omit [DecidableEq T] in
/-- There is room for a priority that preempts: it is not on the stack yet. -/
theorem Nested.room {k : Kernel N T V} (hk : Nested k) (hb : BitmapOk k.shared) {p : ℕ}
    (hp : k.shared.Preempts p) : k.shared.prioStack.length < N := by
  have hpN : p < N := hb.lt p (PriorityBitmap.highest_least hb.wf hp.1).1
  have hpush : Nested (⟨{ k.shared with prioStack := ⟨p⟩ :: k.shared.prioStack },
      .enable ⟨p⟩ :: k.frames⟩ : Kernel N T V) := by
    refine ⟨?_, List.pairwise_cons.mpr ⟨hp.lt_stack hk.sorted, hk.sorted⟩, fun q hq => ?_⟩
    · show _ :: k.shared.prioStack = _ :: k.frames.filterMap Frame.token
      rw [hk.mirror]
    · rcases List.mem_cons.mp hq with rfl | hq
      · exact hpN
      · exact hk.lt q hq
  exact hpush.length_le

/-- The executor whose `run` an activation is inside. -/
def Frame.running : Frame N T V → Option (Fin N)
  | .run e _ => some e
  | _ => none

omit [DecidableEq T] in
theorem Frame.token_of_running {f : Frame N T V} {e : Fin N} (h : f.running = some e) :
    f.token = some ⟨e⟩ := by
  cases f with
  | run e' r =>
    obtain rfl := Option.some.inj h
    rfl
  | _ => cases h

omit [DecidableEq T] in
/-- The running executors are a part of the stack. -/
theorem running_sublist (fs : List (Frame N T V)) :
    List.Sublist ((fs.filterMap Frame.running).map fun e : Fin N => (⟨e.val⟩ : Priority))
      (fs.filterMap Frame.token) := by
  induction fs with
  | nil => exact List.Sublist.slnil
  | cons f fs ih =>
    cases hr : f.running with
    | none =>
      rw [List.filterMap_cons_none hr]
      cases ht : f.token with
      | none => rw [List.filterMap_cons_none ht]; exact ih
      | some p => rw [List.filterMap_cons_some ht]; exact ih.cons p
    | some e =>
      rw [List.filterMap_cons_some hr, List.filterMap_cons_some (Frame.token_of_running hr),
        List.map_cons]
      exact ih.cons_cons _

omit [DecidableEq T] in
/-- Running executors of inner activations have strictly higher priority. -/
theorem Nested.running_sorted {k : Kernel N T V} (hk : Nested k) :
    (k.frames.filterMap Frame.running).Pairwise (· < ·) := by
  have h := hk.sorted
  rw [hk.mirror] at h
  have hrun := h.sublist (running_sublist k.frames)
  exact (List.pairwise_map.mp hrun).imp fun hlt => hlt

namespace Kernel

/-- **The priority stack mirrors the nesting.** In every reachable state the
stack, bottom to top, is strictly increasing in priority with all values below
`N`; the push of `try_preempt` finds room; at most `N` activations are inside
`run`, all of different executors; and `complete_executor` pops the priority
of the `RunToken` whose `run` has returned, leaving on top the token of the
activation it had preempted. -/
theorem prioStack_mirrors_nesting {k : Kernel N T V} (h : Reachable k) :
    (k.shared.prioStack.reverse.Pairwise fun below top => top.isHigherThan below = true) ∧
    (∀ p ∈ k.shared.prioStack, p.value < N) ∧
    (∀ p, k.shared.Preempts p → (k.shared.pushPrio ⟨p⟩).isSome) ∧
    (k.frames.filterMap Frame.running).Nodup ∧
    (k.frames.filterMap Frame.running).length ≤ N ∧
    (∀ rt fs, k.frames = .enable rt :: fs → ∀ e : Fin N, e ∈ fs.filterMap Frame.running →
      e.val ≠ rt.value) ∧
    (∀ e fs, k.frames = .completeExecutor e :: fs →
      k.shared.prioStack = ⟨e⟩ :: fs.filterMap Frame.token ∧
      k.shared.completeExecutor.prioStack = fs.filterMap Frame.token) := by
  obtain ⟨hb, hk⟩ := nested h
  refine ⟨?_, hk.lt, fun p hp => ?_, ?_, ?_, ?_, ?_⟩
  · rw [List.pairwise_reverse]
    exact hk.sorted.imp fun hlt => (Priority.isHigherThan_iff _ _).mpr hlt
  · rw [Shared.pushPrio, if_pos (hk.room hb hp)]
    rfl
  · exact hk.running_sorted.imp fun hlt => Fin.ne_of_lt hlt
  · have := (running_sublist k.frames).length_le
    rw [List.length_map, ← hk.mirror] at this
    exact this.trans hk.length_le
  · intro rt fs hf e he
    have hs := hk.sorted
    rw [hk.mirror, hf, List.filterMap_cons_some (by rfl : (Frame.enable rt).token = some rt)] at hs
    have hmem : (⟨e⟩ : Priority) ∈ fs.filterMap Frame.token :=
      (running_sublist fs).subset (List.mem_map.mpr ⟨e, he, rfl⟩)
    exact Nat.ne_of_gt ((List.pairwise_cons.mp hs).1 _ hmem)
  · intro e fs hf
    have hm := hk.mirror
    rw [hf, List.filterMap_cons_some (by rfl : (Frame.completeExecutor e).token = some ⟨e⟩)] at hm
    exact ⟨hm, by rw [Shared.completeExecutor, hm]; rfl⟩

/-- Executor 1 polls a task, and executor 0 preempts it. -/
theorem prioStack_mirrors_nesting_two : ∃ k : Kernel 2 Bool Unit,
    k.shared.prioStack = [⟨0⟩, ⟨1⟩] ∧ (k.frames.filterMap Frame.running).Nodup := by
  obtain ⟨k, hk, hst⟩ := reachable_of_exec (fun k : Kernel 2 Bool Unit => k.shared.prioStack)
    (Event.spawnTask ⟨1⟩ false ++ .setMie true :: Event.machineSoft ++
      .tick :: Event.spawnTask ⟨0⟩ true ++ Event.machineSoft)
    (a := [⟨0⟩, ⟨1⟩]) (by decide +kernel)
  exact ⟨k, hst, (prioStack_mirrors_nesting hk).2.2.2.1⟩

end Kernel
end RtAsync

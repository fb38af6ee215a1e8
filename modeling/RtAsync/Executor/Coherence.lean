/-
# The bitmap and the run queues agree

`Executor::enqueue` sets the bit of the executor with the push, and
`Executor::run` clears it one turn of its loop after the last dequeue. So the
bit of an empty queue is set only while that executor is inside its loop, and
then it is on the stack: `try_preempt` never hands out a token for it.

Key definitions: `Frame.entering`, `Kernel.Coherent`.
Key theorems: `Next.active`, `Next.entering`, `Kernel.coherent`,
`Kernel.bitmap_coherent`.
-/
import RtAsync.Executor.Nesting

namespace RtAsync

open Function (update update_self update_of_ne)

variable {N : ℕ} {T V : Type}

namespace Frame

/-- A `RunToken` in hand, and no turn of the loop made with it. -/
def entering : Frame N T V → Bool
  | enable _ => true
  | run _ .start => true
  | _ => false

theorem setCall_entering {f : Frame N T V} {c : Option (Call N T)} (h : f.user = some c)
    (c' : Option (Call N T)) : (f.setCall c').entering = false := by
  rcases user_cases h with rfl | rfl | rfl | ⟨e, t, rfl⟩ | ⟨e, t, rfl⟩ <;> rfl

/-- A call does not leave the loop of `run`. -/
theorem setCall_run {e : Fin N} {r : RunPc N T V} {c : Option (Call N T)}
    (h : (run e r).user = some c) (c' : Option (Call N T)) :
    ∃ r', (run e r).setCall c' = run e r' ∧ r' ≠ .start := by
  rcases user_cases h with he | he | he | ⟨e', t, he⟩ | ⟨e', t, he⟩
  · cases he
  · cases he
  · cases he
  · cases he
    exact ⟨.poll t c', rfl, by simp⟩
  · cases he
    exact ⟨.dropInPlace t c', rfl, by simp⟩

end Frame

variable [DecidableEq T]

/-- An executor inside its loop stays there until it clears its bit. -/
theorem Next.active {s s' : Shared N T V} {e : Fin N} {r : RunPc N T V} {ev : Event T V}
    {gs : List (Frame N T V)} (h : Next s (.run e r) ev s' gs) (hr : r ≠ .start) :
    (∃ r', Frame.run e r' ∈ gs ∧ r' ≠ .start) ∨ s.bitmap.clear e = some s'.bitmap := by
  have hsingle : ∀ r' : RunPc N T V, r' ≠ .start → gs = [.run e r'] →
      ∃ r', Frame.run e r' ∈ gs ∧ r' ≠ .start := fun r' hr' hgs =>
    ⟨r', by rw [hgs]; exact List.mem_singleton_self _, hr'⟩
  cases h with
  | call hu _ =>
    obtain ⟨r', he, hr'⟩ := Frame.setCall_run hu _
    exact Or.inl (hsingle r' hr' (by rw [he]))
  | begin hu _ =>
    obtain ⟨r', he, hr'⟩ := Frame.setCall_run hu _
    exact Or.inl (hsingle r' hr' (by rw [he]))
  | setMie => exact Or.inl (hsingle r hr rfl)
  | external => exact Or.inl (hsingle r hr rfl)
  | trapSoft => exact Or.inl ⟨r, by simp, hr⟩
  | trapIsr => exact Or.inl ⟨r, by simp, hr⟩
  | runStart => exact absurd rfl hr
  | drained _ hbm => exact Or.inr hbm
  | dequeue => exact Or.inl (hsingle (.got _) (by simp) rfl)
  | gotPoll => exact Or.inl (hsingle (.poll _ none) (by simp) rfl)
  | gotExited => exact Or.inl (hsingle .top (by simp) rfl)
  | pending => exact Or.inl (hsingle .top (by simp) rfl)
  | ready _ t v => exact Or.inl (hsingle (.storeResult t v) (by simp) rfl)
  | storeResult _ t => exact Or.inl (hsingle (.storeNull t) (by simp) rfl)
  | storeNull _ t => exact Or.inl (hsingle (.dropInPlace t none) (by simp) rfl)
  | dropInPlace _ t => exact Or.inl (hsingle (.storeExited t) (by simp) rfl)
  | storeExited _ t => exact Or.inl (hsingle (.notify t) (by simp) rfl)
  | notify => exact Or.inl (hsingle .top (by simp) rfl)

/-- A token is handed out by `try_preempt` and passed on to `run`. -/
theorem Next.entering {s s' : Shared N T V} {f g : Frame N T V} {ev : Event T V}
    {gs : List (Frame N T V)} (h : Next s f ev s' gs) (hg : g ∈ gs) (he : g.entering = true) :
    (f.entering = true ∧ f.token = g.token) ∨
      ∃ p, s.Preempts p ∧ g.token = some ⟨p⟩ ∧ s'.queue = s.queue := by
  rcases h.mem_frames hg with rfl | rfl | rfl | rfl
  · exact Or.inl ⟨he, rfl⟩
  · cases he
  · cases he
  cases h with
  | call hu _ =>
    rw [Frame.setCall_entering hu] at he
    cases he
  | begin hu _ =>
    rw [Frame.setCall_entering hu] at he
    cases he
  | setMie => exact Or.inl ⟨he, rfl⟩
  | external => exact Or.inl ⟨he, rfl⟩
  | clear sys => cases sys <;> cases he
  | preempt hp _ => exact Or.inr ⟨_, hp, rfl, rfl⟩
  | enable hlt => exact Or.inl ⟨rfl, rfl⟩
  | _ => cases he

namespace Kernel

/-- What the bitmap says of the queues. -/
structure Coherent (k : Kernel N T V) : Prop where
  /-- A queue with a task in it has its bit set. -/
  set : ∀ e : Fin N, k.shared.queue e ≠ [] → k.shared.bitmap.Mem e
  /-- The bit of an empty queue is left over by an executor inside its loop. -/
  active : ∀ e : Fin N, k.shared.bitmap.Mem e → k.shared.queue e = [] →
    ∃ r, Frame.run e r ∈ k.frames ∧ r ≠ .start
  /-- A token names an executor with a task to run. -/
  useful : ∀ f ∈ k.frames, f.entering = true → ∀ e : Fin N, f.token = some ⟨e⟩ →
    k.shared.queue e ≠ []

omit [DecidableEq T] in
theorem Coherent.preempts {k : Kernel N T V} (hk : Coherent k) (hn : Nested k)
    (hb : BitmapOk k.shared) {e : Fin N} (hp : k.shared.Preempts e) : k.shared.queue e ≠ [] := by
  intro hq
  obtain ⟨r, hr, -⟩ := hk.active e (PriorityBitmap.highest_least hb.wf hp.1).1 hq
  have hmem : (⟨e⟩ : Priority) ∈ k.shared.prioStack := by
    rw [hn.mirror]
    exact List.mem_filterMap.mpr ⟨_, hr, rfl⟩
  exact Nat.lt_irrefl _ (hp.lt_stack hn.sorted _ hmem)

section Step

variable {s s' : Shared N T V} {f : Frame N T V} {ev : Event T V} {fs gs : List (Frame N T V)}

/-- The loops on the stack go on where the bit stays set. -/
theorem loops_next (h : Next s f ev s' gs) {e : Fin N}
    (hloop : ∃ r, Frame.run e r ∈ f :: fs ∧ r ≠ .start) (hm : s'.bitmap.Mem e) :
    ∃ r, Frame.run e r ∈ gs ++ fs ∧ r ≠ .start := by
  obtain ⟨r, hr, hstart⟩ := hloop
  rcases List.mem_cons.mp hr with rfl | hr
  · rcases h.active hstart with ⟨r', hr', hstart'⟩ | hclear
    · exact ⟨r', List.mem_append_left _ hr', hstart'⟩
    · exact absurd rfl ((PriorityBitmap.mem_clear hclear e).mp hm).1
  · exact ⟨r, List.mem_append_right _ hr, hstart⟩

/-- Tokens stay useful where queues only grow. -/
theorem Coherent.useful_next (hk : Coherent ⟨s, f :: fs⟩) (hn : Nested ⟨s, f :: fs⟩)
    (hb : BitmapOk s) (h : Next s f ev s' gs) (hgrow : ∀ e, s.queue e ≠ [] → s'.queue e ≠ [])
    {g : Frame N T V} (hg : g ∈ gs ++ fs) (he : g.entering = true) {e : Fin N}
    (htok : g.token = some ⟨e⟩) : s'.queue e ≠ [] := by
  rcases List.mem_append.mp hg with hg | hg
  · rcases h.entering hg he with ⟨hfe, hft⟩ | ⟨p, hp, hgt, hq⟩
    · exact hgrow e (hk.useful f List.mem_cons_self hfe e (hft.trans htok))
    · have hpe : p = e := congrArg Priority.value (Option.some.inj (hgt.symm.trans htok))
      subst hpe
      exact hgrow e (hk.preempts hn hb hp)
  · exact hgrow e (hk.useful g (List.mem_cons_of_mem _ hg) he e htok)

/-- A step that leaves the queues and the bitmap. -/
theorem Coherent.keep (hk : Coherent ⟨s, f :: fs⟩) (hn : Nested ⟨s, f :: fs⟩) (hb : BitmapOk s)
    (h : Next s f ev s' gs) (hq : s'.queue = s.queue) (hbm : s'.bitmap = s.bitmap) :
    Coherent ⟨s', gs ++ fs⟩ where
  set e he := by
    show s'.bitmap.Mem e
    rw [hbm]
    exact hk.set e (hq ▸ he)
  active e hm he := by
    have hmem : s.bitmap.Mem e := by
      rw [← hbm]
      exact hm
    have hnil : s.queue e = [] := by
      rw [← hq]
      exact he
    exact loops_next h (hk.active e hmem hnil) hm
  useful g hg he e htok :=
    hk.useful_next hn hb h (fun e he => by rw [hq]; exact he) hg he htok

/-- A push, which sets the bit. -/
theorem Coherent.push (hk : Coherent ⟨s, f :: fs⟩) (hn : Nested ⟨s, f :: fs⟩) (hb : BitmapOk s)
    (h : Next s f ev s' gs) {e : Fin N} {t : T}
    (hq : s'.queue = update s.queue e (s.queue e ++ [t]))
    (hbm : s.bitmap.set e = some s'.bitmap) : Coherent ⟨s', gs ++ fs⟩ := by
  have hself : s'.queue e ≠ [] := by simp [hq]
  have hother : ∀ e', e' ≠ e → s'.queue e' = s.queue e' := fun e' hne => by
    rw [hq, update_of_ne hne]
  have hgrow : ∀ e', s.queue e' ≠ [] → s'.queue e' ≠ [] := fun e' he' => by
    by_cases hee : e' = e
    · rw [hee]
      exact hself
    · rw [hother e' hee]
      exact he'
  refine ⟨fun e' he' => ?_, fun e' hm he' => ?_, fun g hg he e' htok =>
    hk.useful_next hn hb h hgrow hg he htok⟩
  · rw [PriorityBitmap.mem_set hbm]
    by_cases hee : e' = e
    · exact Or.inl (congrArg Fin.val hee)
    · exact Or.inr (hk.set e' (by rw [← hother e' hee]; exact he'))
  · have hee : e' ≠ e := fun hee => hself (hee ▸ he')
    rcases (PriorityBitmap.mem_set hbm _).mp hm with hv | hm'
    · exact absurd (Fin.ext hv) hee
    · exact loops_next h (hk.active e' hm' (by rw [← hother e' hee]; exact he')) hm

/-- A dequeue, which leaves the bit: the loop that dequeues is on the stack. -/
theorem Coherent.dequeue (hk : Coherent ⟨s, f :: fs⟩) (hn : Nested ⟨s, f :: fs⟩)
    (h : Next s f ev s' gs) {e : Fin N} {t : T} {ts : List T} (hf : f = .run e .top)
    (hgs : gs = [.run e (.got t)]) (hqe : s.queue e = t :: ts)
    (hq : s'.queue = update s.queue e ts) (hbm : s'.bitmap = s.bitmap) :
    Coherent ⟨s', gs ++ fs⟩ := by
  have hother : ∀ e', e' ≠ e → s'.queue e' = s.queue e' := fun e' hne => by
    rw [hq, update_of_ne hne]
  refine ⟨fun e' he' => ?_, fun e' hm he' => ?_, fun g hg he e' htok => ?_⟩
  · show s'.bitmap.Mem e'
    rw [hbm]
    by_cases hee : e' = e
    · refine hk.set e' ?_
      show s.queue e' ≠ []
      rw [hee, hqe]
      exact List.cons_ne_nil t ts
    · exact hk.set e' (by rw [← hother e' hee]; exact he')
  · by_cases hee : e' = e
    · subst hee
      exact ⟨.got t, by rw [hgs]; exact List.mem_cons_self, by simp⟩
    · have hmem : s.bitmap.Mem e' := by
        rw [← hbm]
        exact hm
      exact loops_next h (hk.active e' hmem (by rw [← hother e' hee]; exact he')) hm
  · -- the loop that dequeues and the token are two entries of the stack
    rw [hgs] at hg
    rcases List.mem_cons.mp hg with rfl | hg
    · cases he
    have hg : g ∈ fs := hg
    have hsorted := hn.sorted
    rw [hn.mirror, hf, List.filterMap_cons_some (rfl : (Frame.run e .top).token = some ⟨e⟩)]
      at hsorted
    have hlt := (List.pairwise_cons.mp hsorted).1 ⟨e'⟩ (List.mem_filterMap.mpr ⟨g, hg, htok⟩)
    rw [hother e' (fun hee => Nat.ne_of_lt hlt (congrArg Fin.val hee.symm))]
    exact hk.useful g (List.mem_cons_of_mem _ hg) he e' htok

/-- The end of a loop, which clears the bit of its empty queue. -/
theorem Coherent.drained (hk : Coherent ⟨s, f :: fs⟩) (hn : Nested ⟨s, f :: fs⟩) (hb : BitmapOk s)
    (h : Next s f ev s' gs) {e : Fin N} (hqe : s.queue e = []) (hq : s'.queue = s.queue)
    (hbm : s.bitmap.clear e = some s'.bitmap) : Coherent ⟨s', gs ++ fs⟩ := by
  refine ⟨fun e' he' => ?_, fun e' hm he' => ?_, fun g hg he e' htok =>
    hk.useful_next hn hb h (fun e he => by rw [hq]; exact he) hg he htok⟩
  · have he' : s.queue e' ≠ [] := by rw [← hq]; exact he'
    refine (PriorityBitmap.mem_clear hbm e').mpr ⟨fun hv => he' ?_, hk.set e' he'⟩
    rw [Fin.ext hv, hqe]
  · have hmem : s.bitmap.Mem e' := ((PriorityBitmap.mem_clear hbm e').mp hm).2
    have hnil : s.queue e' = [] := by
      rw [← hq]
      exact he'
    exact loops_next h (hk.active e' hmem hnil) hm

theorem Coherent.next (hk : Coherent ⟨s, f :: fs⟩) (hn : Nested ⟨s, f :: fs⟩) (hb : BitmapOk s)
    (h : Next s f ev s' gs) : Coherent ⟨s', gs ++ fs⟩ := by
  cases h.queueEffect with
  | keep _ hq _ _ hbm => exact hk.keep hn hb h hq hbm
  | flag _ _ _ _ _ _ _ _ hq _ _ hbm => exact hk.keep hn hb h hq hbm
  | push t e _ _ _ _ _ hq _ _ hbm => exact hk.push hn hb h hq hbm
  | wake t e _ _ _ _ _ _ _ hq _ _ hbm => exact hk.push hn hb h hq hbm
  | storeNull _ _ _ _ _ hq _ _ hbm => exact hk.keep hn hb h hq hbm
  | dequeue t ts e _ hf hgs hqe hq _ _ hbm => exact hk.dequeue hn h hf hgs hqe hq hbm
  | drained e _ hf hgs hqe hq _ _ hbm => exact hk.drained hn hb h hqe hq hbm

end Step

omit [DecidableEq T] in
theorem init_coherent : Coherent (init (N := N) (T := T) (V := V)) := by
  refine ⟨fun e he => absurd rfl he, fun e hm => absurd hm (PriorityBitmap.not_mem_new e.val), ?_⟩
  intro f hf he
  rw [List.mem_singleton.mp hf] at he
  cases he

theorem coherent {k : Kernel N T V} (h : Reachable k) : Coherent k := by
  refine (h.invariant (I := fun k => Reachable k ∧ Coherent k) ?_
    ⟨Transition.Steps.refl _, init_coherent⟩).2
  intro k ev k' ⟨hr, hc⟩ hstep
  have hr' : Reachable k' := hr.tail trivial hstep
  obtain ⟨hb, hn⟩ := nested hr
  obtain ⟨f, fs, s', gs, hk, rfl, hnext⟩ := step_next hstep
  rw [hk] at hc hn
  exact ⟨hr', hc.next hn hb hnext⟩

/-- **Bitmap and run queues stay coherent.** In every reachable state the bit
of a queue with a task in it is set; the bit of an empty queue is set only for
a priority on the stack whose `run` is active; a token of `try_preempt` names
an executor that is not on the stack and has a task, and it still has one when
its `run` starts; and with an empty stack no bit is set for an empty queue. -/
theorem bitmap_coherent {k : Kernel N T V} (h : Reachable k) :
    (∀ e : Fin N, k.shared.queue e ≠ [] → k.shared.bitmap.Mem e) ∧
    (∀ p, k.shared.bitmap.Mem p → p < N) ∧
    (∀ e : Fin N, k.shared.bitmap.Mem e → k.shared.queue e = [] →
      ⟨e⟩ ∈ k.shared.prioStack ∧ e ∈ k.frames.filterMap Frame.running) ∧
    (∀ s' rt, k.shared.tryPreempt = some (s', some rt) →
      rt ∉ k.shared.prioStack ∧ ∃ hlt : rt.value < N, k.shared.queue ⟨rt.value, hlt⟩ ≠ []) ∧
    (∀ e : Fin N, .enable ⟨e⟩ ∈ k.frames ∨ .run e .start ∈ k.frames → k.shared.queue e ≠ []) ∧
    (k.shared.prioStack = [] → ∀ e : Fin N, k.shared.bitmap.Mem e → k.shared.queue e ≠ []) := by
  have hk := coherent h
  obtain ⟨hb, hn⟩ := nested h
  have hactive : ∀ e : Fin N, k.shared.bitmap.Mem e → k.shared.queue e = [] →
      ⟨e⟩ ∈ k.shared.prioStack ∧ e ∈ k.frames.filterMap Frame.running := fun e hm hq => by
    obtain ⟨r, hr, -⟩ := hk.active e hm hq
    refine ⟨?_, List.mem_filterMap.mpr ⟨_, hr, rfl⟩⟩
    rw [hn.mirror]
    exact List.mem_filterMap.mpr ⟨_, hr, rfl⟩
  refine ⟨hk.set, hb.lt, hactive, fun s' rt hpre => ?_, fun e he => ?_, fun hempty e hm hq => ?_⟩
  · rcases Shared.tryPreempt_some hpre with ⟨p, hp, -, hrt, -⟩ | ⟨hnone, -, -⟩
    · obtain rfl := Option.some.inj hrt
      have hlt : p < N := hb.lt p (PriorityBitmap.highest_least hb.wf hp.1).1
      exact ⟨fun hmem => Nat.lt_irrefl _ (hp.lt_stack hn.sorted _ hmem), hlt,
        hk.preempts hn hb (e := ⟨p, hlt⟩) hp⟩
    · cases hnone
  · rcases he with he | he
    · exact hk.useful _ he rfl e rfl
    · exact hk.useful _ he rfl e rfl
  · have hmem := (hactive e hm hq).1
    rw [hempty] at hmem
    cases hmem

/-- The last task is dequeued, and its executor has yet to clear the bit. -/
theorem bitmap_coherent_last : ∃ k : Kernel 1 Unit Unit,
    k.shared.queue 0 = [] ∧ k.shared.bitmap.Mem 0 ∧ ⟨0⟩ ∈ k.shared.prioStack := by
  obtain ⟨k, hk, hobs⟩ := reachable_of_exec
    (fun k : Kernel 1 Unit Unit => (k.shared.queue 0, k.shared.bitmap.isSet 0))
    (Event.spawnTask ⟨0⟩ () ++ .setMie true :: Event.machineSoft)
    (a := ([], some true)) (by decide +kernel)
  obtain ⟨hq, hm⟩ := Prod.mk.inj hobs
  exact ⟨k, hq, hm, ((bitmap_coherent hk).2.2.1 0 hm hq).1⟩

end Kernel
end RtAsync

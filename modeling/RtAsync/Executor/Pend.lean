/-
# No preemption is missed

Whenever `try_preempt` would hand out a token, somebody is on the way to
calling it: the software interrupt is pending and marked, or an activation has
enqueued a task and has not finished `pend`, or the innermost activation is a
`MachineSoft` about to call `try_preempt`. `Kernel.Masked` says which
statements run with interrupts disabled, so that nothing comes between the
swap of `PEND_MARKER` and `try_preempt`.

Key definitions: `Kernel.Masked`, `Frame.deciding`, `Frame.scheduling`,
`Kernel.Owing`.
Key theorems: `Masked.next`, `Owing.next`, `Kernel.no_missed_preemption`.
-/
import RtAsync.Executor.Coherence

namespace RtAsync

variable {N : ℕ} {T V : Type}

/-! ### The interrupt mask -/

/-- Interrupts are enabled only at statements where they may be; only such
statements lie below another activation; and the marker stays false between
the two accesses of `clear_pend`. -/
structure Kernel.Masked (k : Kernel N T V) : Prop where
  head : ∀ f fs, k.frames = f :: fs → k.shared.mie = true → f.interruptible = true
  tail : ∀ f fs, k.frames = f :: fs → ∀ g ∈ fs, g.interruptible = true
  marker : ∀ sys fs, k.frames = .clear sys :: fs → k.shared.pendMarker = false

/-- Back at an activation that was preempted. -/
theorem Kernel.Masked.resume {s : Shared N T V} {fs : List (Frame N T V)}
    (h : ∀ g ∈ fs, g.interruptible = true) : Kernel.Masked ⟨s, fs⟩ := by
  refine ⟨fun f gs hf _ => h f ?_, fun f gs hf g hg => h g ?_, fun sys gs hf => ?_⟩
  · rw [show fs = f :: gs from hf]
    exact List.mem_cons_self
  · rw [show fs = f :: gs from hf]
    exact List.mem_cons_of_mem _ hg
  · have hclear := h (.clear sys) (by rw [show fs = .clear sys :: gs from hf]; exact List.mem_cons_self)
    cases hclear

/-- The innermost activation moves on to a statement. -/
theorem Kernel.Masked.single {s : Shared N T V} {f : Frame N T V} {fs : List (Frame N T V)}
    (hhead : s.mie = true → f.interruptible = true) (htail : ∀ g ∈ fs, g.interruptible = true)
    (hmarker : ∀ sys, f = .clear sys → s.pendMarker = false) : Kernel.Masked ⟨s, f :: fs⟩ := by
  refine ⟨fun g gs hg hmie => ?_, fun g gs hg => ?_, fun sys gs hg => ?_⟩
  · obtain ⟨rfl, -⟩ := List.cons.inj hg
    exact hhead hmie
  · obtain ⟨-, rfl⟩ := List.cons.inj hg
    exact htail
  · obtain ⟨hf, -⟩ := List.cons.inj hg
    exact hmarker sys hf

/-- A handler starts on top of an activation that can be interrupted. -/
theorem Kernel.Masked.trap {s : Shared N T V} {f g : Frame N T V} {fs : List (Frame N T V)}
    (hk : Kernel.Masked ⟨s, f :: fs⟩) (hmie : s.mie = true) (hg : ∀ sys, g ≠ .clear sys) :
    Kernel.Masked ⟨{ s with mie := false }, g :: f :: fs⟩ := by
  refine .single (fun h => by cases h) (fun h hh => ?_) (fun sys h => absurd h (hg sys))
  rcases List.mem_cons.mp hh with rfl | hh
  · exact hk.head h fs rfl hmie
  · exact hk.tail f fs rfl h hh

variable [DecidableEq T]

theorem Kernel.Masked.next {s s' : Shared N T V} {f : Frame N T V} {ev : Event T V}
    {fs gs : List (Frame N T V)} (hk : Kernel.Masked ⟨s, f :: fs⟩) (h : Next s f ev s' gs) :
    Kernel.Masked ⟨s', gs ++ fs⟩ := by
  have htail : ∀ g ∈ fs, g.interruptible = true := hk.tail f fs rfl
  have hhead : s.mie = true → f.interruptible = true := hk.head f fs rfl
  cases h with
  | @call _ c _ c' hu hc =>
    refine .single (fun hm => ?_) htail (fun sys hf => ?_)
    · rw [Frame.setCall_interruptible]
      exact hhead ((callStep_stack hc).2 ▸ hm)
    · have hf' := Frame.setCall_user hu c'
      rw [hf] at hf'
      cases hf'
  | @begin _ _ _ c hu hc =>
    obtain ⟨⟨tk, rfl⟩, -⟩ := callStart_shared hc
    refine .single (fun hm => ?_) htail (fun sys hf => ?_)
    · rw [Frame.setCall_interruptible]
      exact hhead hm
    · have hf' := Frame.setCall_user hu (some c)
      rw [hf] at hf'
      cases hf'
  | setMie b hu hi =>
    refine .single (fun _ => hi) htail (fun sys hf => ?_)
    rw [hf] at hu
    cases hu
  | trapSoft hm _ => exact hk.trap hm (by simp)
  | trapIsr hm => exact hk.trap hm (by simp)
  | external => exact .single hhead htail fun sys hf => hk.marker sys fs (by rw [hf])
  | isrRet => exact .resume htail
  | mret => exact .resume htail
  | swap => exact .single hhead htail fun _ _ => rfl
  | clear sys =>
    cases sys
    · exact .single hhead htail fun _ hf => by cases hf
    · exact .single hhead htail fun _ hf => by cases hf
  | enable hlt => exact .single (fun _ => rfl) htail fun _ hf => by cases hf
  | drained => exact .single (fun _ => rfl) htail fun _ hf => by cases hf
  | disable => exact .single (fun hm => by cases hm) htail fun _ hf => by cases hf
  | notify hn => exact .single (fun _ => rfl) htail fun _ hf => by cases hf
  | hookRet => exact .single hhead htail fun _ hf => by cases hf
  | preempt => exact .single hhead htail fun _ hf => by cases hf
  | noPreempt => exact .single hhead htail fun _ hf => by cases hf
  | complete => exact .single hhead htail fun _ hf => by cases hf
  | _ => exact .single (fun _ => rfl) htail fun _ hf => by cases hf

/-! ### What is owed -/

namespace Frame

/-- A task is enqueued, and the call has not decided to pend yet. -/
def deciding (f : Frame N T V) : Prop :=
  f.calling = some .pendMark ∨ f.calling = some .spawnPend

/-- A `MachineSoft` whose next call of the scheduler is `try_preempt`. -/
def scheduling (f : Frame N T V) : Prop := f = .clear true ∨ f = .tryPreempt

end Frame

/-- A ready executor would preempt the running one. -/
def Shared.Behind (s : Shared N T V) : Prop := ∃ p, s.Preempts p

/-- A pass of the scheduler is on its way. -/
inductive Kernel.Owing (k : Kernel N T V) : Prop
  | pending : k.shared.msip = true → k.shared.pendMarker = true → Owing k
  | deciding (f : Frame N T V) : f ∈ k.frames → f.deciding → Owing k
  | sending (f : Frame N T V) : f ∈ k.frames → f.calling = some .pendSend →
      k.shared.pendMarker = true → Owing k
  | scheduling (f : Frame N T V) (fs : List (Frame N T V)) : k.frames = f :: fs →
      f.scheduling → Owing k

omit [DecidableEq T] in
/-- A step of an activation that owes nothing itself leaves what is owed. -/
theorem Kernel.Owing.keep {s s' : Shared N T V} {f : Frame N T V} {fs gs : List (Frame N T V)}
    (h : Kernel.Owing ⟨s, f :: fs⟩) (hmsip : s.msip = true → s'.msip = true)
    (hmarker : s.pendMarker = true → s'.pendMarker = true) (hsched : ¬ f.scheduling)
    (hf : f ∈ gs ∨ (¬ f.deciding ∧ f.calling ≠ some .pendSend)) :
    Kernel.Owing ⟨s', gs ++ fs⟩ := by
  have hmem : ∀ g ∈ f :: fs, g.deciding ∨ g.calling = some .pendSend → g ∈ gs ++ fs := by
    intro g hg hcall
    rcases List.mem_cons.mp hg with rfl | hg
    · rcases hf with hf | ⟨hd, hs⟩
      · exact List.mem_append_left _ hf
      · rcases hcall with hcall | hcall
        · exact absurd hcall hd
        · exact absurd hcall hs
    · exact List.mem_append_right _ hg
  cases h with
  | pending hp hm => exact .pending (hmsip hp) (hmarker hm)
  | deciding g hg hd => exact .deciding g (hmem g hg (Or.inl hd)) hd
  | sending g hg hs hm => exact .sending g (hmem g hg (Or.inr hs)) hs (hmarker hm)
  | scheduling g gs' hg hs =>
    obtain ⟨rfl, -⟩ := List.cons.inj hg
    exact absurd hs hsched

omit [DecidableEq T] in
theorem Shared.Behind.congr {s s' : Shared N T V} (h : s'.Behind) (hbm : s'.bitmap = s.bitmap)
    (hst : s'.prioStack = s.prioStack) : s.Behind := by
  obtain ⟨p, hp, hlt⟩ := h
  exact ⟨p, hbm ▸ hp, hst ▸ hlt⟩

omit [DecidableEq T] in
/-- Clearing a bit puts nobody ahead of the running executor. -/
theorem Shared.Behind.of_clear {s : Shared N T V} {e : ℕ} {bm : PriorityBitmap 64}
    (hb : BitmapOk s) (hbm : s.bitmap.clear e = some bm)
    (h : Shared.Behind { s with bitmap := bm }) : s.Behind := by
  obtain ⟨p, hp, hlt⟩ := h
  have hwf : bm.WF := PriorityBitmap.clear_wf (by decide) hb.wf hbm
  have hmem : s.bitmap.Mem p :=
    ((PriorityBitmap.mem_clear hbm p).mp (PriorityBitmap.highest_least hwf hp).1).2
  obtain ⟨q, hq, hle⟩ := PriorityBitmap.highest_of_mem hb.wf hmem
  exact ⟨q, hq, fun r hr => Nat.lt_of_le_of_lt hle (hlt r hr)⟩

omit [DecidableEq T] in
/-- Nobody is ahead of the executor that was just picked. -/
theorem Shared.Preempts.not_behind {s : Shared N T V} {p : ℕ} (hp : s.Preempts p) :
    ¬ Shared.Behind { s with prioStack := ⟨p⟩ :: s.prioStack } := by
  rintro ⟨q, hq, hlt⟩
  have hqp : q = p := Option.some.inj (Option.some.inj (hq.symm.trans hp.1))
  exact Nat.lt_irrefl p (hqp ▸ hlt ⟨p⟩ rfl)

/-- What an access of a call does about the pend: nothing, and it was not a
step of one; it leaves the call owing its decision or its send; or it is the
send, or the decision. -/
theorem callStep_pend {s s' : Shared N T V} {c : Call N T} {c' : Option (Call N T)}
    (h : callStep s c = some (s', c')) :
    (s'.bitmap = s.bitmap ∧ s'.msip = s.msip ∧ s'.pendMarker = s.pendMarker ∧
      c ≠ .pendMark ∧ c ≠ .spawnPend ∧ c ≠ .pendSend) ∨
    (c' = some .pendMark ∨ c' = some .spawnPend) ∨
    (c' = some .pendSend ∧ s'.pendMarker = true) ∨
    (c = .pendSend ∧ s' = { s with msip := true }) ∨
    (c = .spawnPend ∧ (s' = s.pend ∨ s' = s ∧ ¬ s.Behind)) := by
  cases callStep_next h with
  | wakePush => exact Or.inr (Or.inl (Or.inl rfl))
  | spawnPush => exact Or.inr (Or.inl (Or.inr rfl))
  | pendMark => exact Or.inr (Or.inr (Or.inl ⟨rfl, rfl⟩))
  | pendSend => exact Or.inr (Or.inr (Or.inr (Or.inl ⟨rfl, rfl⟩)))
  | spawnPend => exact Or.inr (Or.inr (Or.inr (Or.inr ⟨rfl, Or.inl rfl⟩)))
  | spawnQuiet hno => exact Or.inr (Or.inr (Or.inr (Or.inr ⟨rfl, Or.inr ⟨rfl, hno⟩⟩)))
  | _ => exact Or.inl ⟨rfl, rfl, rfl, by simp, by simp, by simp⟩

omit [DecidableEq T] in
/-- `MachineSoft` at a statement of the scheduler makes no call. -/
theorem Frame.not_scheduling {f : Frame N T V} {c : Option (Call N T)} (h : f.user = some c) :
    ¬ f.scheduling := by
  rintro (rfl | rfl)
  · cases h
  · cases h

theorem notifyLocked_pend {s s' : Shared N T V} {t : T} (h : s.notifyLocked t = some s') :
    (s'.msip = true ∧ s'.pendMarker = true) ∨
      (s'.bitmap = s.bitmap ∧ s'.msip = s.msip ∧ s'.pendMarker = s.pendMarker) := by
  rcases Shared.notifyLocked_some h with ⟨-, rfl⟩ | ⟨w, -, hw⟩
  · exact Or.inr ⟨rfl, rfl, rfl⟩
  · rcases Shared.wakeLocked_some hw with ⟨-, rfl⟩ | ⟨e, -, ⟨-, rfl⟩ | ⟨-, bm, -, rfl⟩⟩
    · exact Or.inr ⟨rfl, rfl, rfl⟩
    · exact Or.inr ⟨rfl, rfl, rfl⟩
    · exact Or.inl ⟨rfl, rfl⟩

section Owed

variable {s s' : Shared N T V} {f : Frame N T V} {ev : Event T V} {fs gs : List (Frame N T V)}

omit [DecidableEq T] in
/-- An activation that owes no decision and no pass: the marker is set, or
somebody below it owes the decision. -/
theorem Kernel.Owing.below (h : Kernel.Owing ⟨s, f :: fs⟩) (hd : ¬f.deciding)
    (hs : ¬f.scheduling) : s.pendMarker = true ∨ ∃ g ∈ fs, g.deciding := by
  cases h with
  | pending _ hmark => exact Or.inl hmark
  | sending _ _ _ hmark => exact Or.inl hmark
  | deciding g hg hg' =>
    rcases List.mem_cons.mp hg with rfl | hg
    · exact absurd hg' hd
    · exact Or.inr ⟨g, hg, hg'⟩
  | scheduling g gs' hg hg' =>
    obtain ⟨rfl, -⟩ := List.cons.inj hg
    exact absurd hg' hs

/-- An access of a call: the enqueue, the decision or the send. -/
theorem Kernel.Owing.call {c : Call N T} {c' : Option (Call N T)}
    (hk : s.Behind → Kernel.Owing ⟨s, f :: fs⟩) (hu : f.user = some (some c))
    (hc : callStep s c = some (s', c')) (hbehind : s'.Behind) :
    Kernel.Owing ⟨s', [f.setCall c'] ++ fs⟩ := by
  have hmem : f.setCall c' ∈ [f.setCall c'] ++ fs := List.mem_cons_self
  have hcall : (f.setCall c').calling = c' := Frame.setCall_calling hu c'
  have hsched : ¬f.scheduling := Frame.not_scheduling hu
  have hstack := (callStep_stack hc).1
  rcases callStep_pend hc with ⟨hbm, hmsip, hmarker, h1, h2, h3⟩ | hd | ⟨hs, hmark⟩ |
    ⟨rfl, rfl⟩ | ⟨rfl, rfl | ⟨rfl, hno⟩⟩
  · refine (hk (hbehind.congr hbm hstack)).keep (by rw [hmsip]; exact id)
      (by rw [hmarker]; exact id) hsched (Or.inr ?_)
    rw [Frame.deciding, Frame.calling_eq hu]
    exact ⟨not_or.mpr ⟨fun h => h1 (Option.some.inj h), fun h => h2 (Option.some.inj h)⟩,
      fun h => h3 (Option.some.inj h)⟩
  · exact .deciding _ hmem (by rw [Frame.deciding, hcall]; exact hd)
  · exact .sending _ hmem (by rw [hcall]; exact hs) hmark
  · -- the send: the marker was set, or somebody else owes
    have hdec : ¬f.deciding := by
      rw [Frame.deciding, Frame.calling_eq hu]
      simp
    rcases (hk (hbehind.congr rfl hstack)).below hdec hsched with hmark | ⟨g, hg, hd⟩
    · exact .pending rfl hmark
    · exact .deciding g (List.mem_append_right _ hg) hd
  · exact .pending rfl rfl
  · exact absurd hbehind hno

theorem Kernel.Owing.next (hk : s.Behind → Kernel.Owing ⟨s, f :: fs⟩)
    (hm : Kernel.Masked ⟨s, f :: fs⟩) (hn : Nested ⟨s, f :: fs⟩) (hb : BitmapOk s)
    (h : Next s f ev s' gs) : s'.Behind → Kernel.Owing ⟨s', gs ++ fs⟩ := by
  intro hbehind
  -- steps that neither pend nor put anybody ahead
  have hquiet : s.Behind → ¬ f.scheduling → (f ∈ gs ∨ f.calling = none) →
      (s.msip = true → s'.msip = true) → (s.pendMarker = true → s'.pendMarker = true) →
      Kernel.Owing ⟨s', gs ++ fs⟩ := fun hs hsched hf hmsip hmarker => by
    refine (hk hs).keep hmsip hmarker hsched (hf.imp_right fun hnone => ?_)
    rw [Frame.deciding, hnone]
    exact ⟨by simp, by simp⟩
  cases h with
  | call hu hc => exact .call hk hu hc hbehind
  | begin hu hc =>
    obtain ⟨⟨tk, rfl⟩, -⟩ := callStart_shared hc
    exact hquiet hbehind (Frame.not_scheduling hu) (Or.inr (Frame.calling_eq hu)) id id
  | setMie b hu hi =>
    exact hquiet hbehind (Frame.not_scheduling hu) (Or.inl List.mem_cons_self) id id
  | trapSoft hmie _ =>
    have hi := hm.head f fs rfl hmie
    refine hquiet hbehind ?_ (Or.inl (by simp)) id id
    rintro (rfl | rfl) <;> cases hi
  | trapIsr hmie =>
    have hi := hm.head f fs rfl hmie
    refine hquiet hbehind ?_ (Or.inl (by simp)) id id
    rintro (rfl | rfl) <;> cases hi
  | external =>
    by_cases hsched : f.scheduling
    · exact .scheduling f fs rfl hsched
    · exact hquiet hbehind hsched (Or.inl List.mem_cons_self) (fun _ => rfl) id
  | swap =>
    -- what was marked is now owed by the activation itself
    rcases Bool.eq_false_or_eq_true s.pendMarker with hmark | hmark
    · exact .scheduling _ fs rfl (Or.inl (by rw [hmark]))
    · refine hquiet hbehind ?_ (Or.inr rfl) id (fun h => ?_)
      · rintro (h | h) <;> cases h
      · rw [hmark] at h
        cases h
  | clear sys =>
    cases sys with
    | true => exact .scheduling _ fs rfl (Or.inr rfl)
    | false =>
      have hmark : s.pendMarker = false := hm.marker false fs rfl
      have hdec : ¬(Frame.clear false : Frame N T V).deciding := by
        rintro (hd | hd) <;> cases hd
      have hsched : ¬(Frame.clear false : Frame N T V).scheduling := by
        rintro (hs | hs) <;> cases hs
      rcases (hk hbehind).below hdec hsched with h | ⟨g, hg, hd⟩
      · rw [hmark] at h
        cases h
      · exact .deciding g (List.mem_append_right _ hg) hd
  | preempt hp _ => exact absurd hbehind hp.not_behind
  | noPreempt hfull =>
    obtain ⟨p, hp⟩ := hbehind
    exact absurd (hfull ⟨p, hp⟩) (Nat.not_le.mpr (hn.room hb hp))
  | complete e => exact .scheduling _ fs rfl (Or.inr rfl)
  | drained hq hbm =>
    refine hquiet (hbehind.of_clear hb hbm) ?_ (Or.inr rfl) id id
    rintro (h | h) <;> cases h
  | notify hn' =>
    rcases notifyLocked_pend hn' with ⟨hmsip, hmark⟩ | ⟨hbm, hmsip, hmark⟩
    · exact .pending hmsip hmark
    · refine hquiet (hbehind.congr hbm (notifyLocked_stack hn').1) ?_ (Or.inr rfl)
        (by rw [hmsip]; exact id) (by rw [hmark]; exact id)
      rintro (h | h) <;> cases h
  | _ =>
    refine hquiet (hbehind.congr rfl rfl) ?_ (Or.inr rfl) id id
    rintro (h | h) <;> cases h

end Owed

namespace Kernel

omit [DecidableEq T] in
theorem init_masked : Masked (init (N := N) (T := T) (V := V)) :=
  .single (fun _ => rfl) (fun _ hg => by cases hg) (fun _ hf => by cases hf)

theorem masked {k : Kernel N T V} (h : Reachable k) : Masked k := by
  refine h.invariant (I := Masked) ?_ init_masked
  intro k ev k' hm hstep
  obtain ⟨f, fs, s', gs, hk, rfl, hnext⟩ := step_next hstep
  rw [hk] at hm
  exact hm.next hnext

theorem owing {k : Kernel N T V} (h : Reachable k) : k.shared.Behind → Owing k := by
  refine (h.invariant (I := fun k => Reachable k ∧ (k.shared.Behind → Owing k)) ?_
    ⟨Transition.Steps.refl _, ?_⟩).2
  · intro k ev k' ⟨hr, ho⟩ hstep
    have hr' : Reachable k' := hr.tail trivial hstep
    obtain ⟨hb, hn⟩ := nested hr
    have hm := masked hr
    obtain ⟨f, fs, s', gs, hk, rfl, hnext⟩ := step_next hstep
    rw [hk] at ho hm hn
    exact ⟨hr', Owing.next ho hm hn hb hnext⟩
  · rintro ⟨p, hp, -⟩
    have hmem := (PriorityBitmap.highest_least init_bitmapOk.wf hp).1
    exact absurd hmem (PriorityBitmap.not_mem_new p)

/-- **No preemption is missed.** In every reachable state whose bitmap holds a
priority strictly higher than the top of the stack (or any, when the stack is
empty), the software interrupt is pending and marked; or an activation has
enqueued a task and not finished its pend; or the innermost activation is a
`MachineSoft`, interrupts disabled, that has swapped out a set marker or left
`complete_executor` and calls `try_preempt` next. In particular the idle loop
with a task in some queue has the marked interrupt pending. -/
theorem no_missed_preemption {k : Kernel N T V} (h : Reachable k) :
    ((∃ p, k.shared.bitmap.highest = some (some p) ∧
        ∀ q ∈ k.shared.prioStack.head?, (⟨p⟩ : Priority).isHigherThan q = true) →
      (k.shared.msip = true ∧ k.shared.pendMarker = true) ∨
      (∃ f ∈ k.frames, f.calling = some .pendMark ∨ f.calling = some .pendSend ∨
        f.calling = some .spawnPend) ∨
      (k.shared.mie = false ∧
        ∃ fs, k.frames = .clear true :: fs ∨ k.frames = .tryPreempt :: fs)) ∧
    (k.frames = [.base none] → (∃ e, k.shared.queue e ≠ []) →
      k.shared.msip = true ∧ k.shared.pendMarker = true) := by
  have hm := masked h
  refine ⟨fun ⟨p, hp, hlt⟩ => ?_, fun hidle ⟨e, he⟩ => ?_⟩
  · have hbehind : k.shared.Behind :=
      ⟨p, hp, fun q hq => (Priority.isHigherThan_iff _ _).mp (hlt q hq)⟩
    cases owing h hbehind with
    | pending hp hmark => exact Or.inl ⟨hp, hmark⟩
    | deciding f hf hd =>
      exact Or.inr (Or.inl ⟨f, hf, hd.imp_right Or.inr⟩)
    | sending f hf hs _ => exact Or.inr (Or.inl ⟨f, hf, Or.inr (Or.inl hs)⟩)
    | scheduling f fs hf hs =>
      have hoff : k.shared.mie = false := by
        rw [Bool.eq_false_iff]
        intro hmie
        have hi := hm.head f fs hf hmie
        rcases hs with rfl | rfl <;> cases hi
      rcases hs with rfl | rfl
      · exact Or.inr (Or.inr ⟨hoff, fs, Or.inl hf⟩)
      · exact Or.inr (Or.inr ⟨hoff, fs, Or.inr hf⟩)
  · obtain ⟨hb, hn⟩ := nested h
    obtain ⟨p, hp, -⟩ := PriorityBitmap.highest_of_mem hb.wf ((coherent h).set e he)
    have hstack : k.shared.prioStack = [] := by
      rw [hn.mirror, hidle]
      rfl
    have hbehind : k.shared.Behind := ⟨p, hp, by rw [hstack]; simp⟩
    cases owing h hbehind with
    | pending hp hmark => exact ⟨hp, hmark⟩
    | deciding f hf hd =>
      rw [hidle] at hf
      rw [List.mem_singleton.mp hf] at hd
      rcases hd with hd | hd <;> cases hd
    | sending f hf hs _ =>
      rw [hidle] at hf
      rw [List.mem_singleton.mp hf] at hs
      cases hs
    | scheduling f fs hf hs =>
      rw [hidle] at hf
      obtain ⟨rfl, -⟩ := List.cons.inj hf
      rcases hs with hs | hs <;> cases hs

/-- `main` has spawned a task and idles. -/
theorem no_missed_preemption_idle : ∃ k : Kernel 1 Unit Unit,
    k.frames = [.base none] ∧ k.shared.queue 0 = [()] ∧
      k.shared.msip = true ∧ k.shared.pendMarker = true := by
  obtain ⟨k, hk, hobs⟩ := reachable_of_exec
    (fun k : Kernel 1 Unit Unit => (k.frames, k.shared.queue 0)) (Event.spawnTask ⟨0⟩ ())
    (a := ([.base none], [()])) (by decide +kernel)
  obtain ⟨hf, hq⟩ := Prod.mk.inj hobs
  exact ⟨k, hf, hq, (no_missed_preemption hk).2 hf ⟨0, by rw [hq]; simp⟩⟩

end Kernel
end RtAsync

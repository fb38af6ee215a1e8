/-
# A task and what it awaits

A future that awaits an interrupt source polls it with the waker of its task;
the handler of the interrupt feeds the source and wakes the waker it finds
there. A `Source` is such a thing by its accesses. Put beside the hart, its
accesses are made where the future of the task runs, and the handler's where
an interrupt handler does, whose wake is then a call of the executor like any
other.

While the storage of the task is spawned once, the wake of a task that awaits
something is answered: the back-pointer is there and the future is (`Live`), so
from the wake on the task is due (`Due`) until a poll of it begins. In the idle
loop nothing is due, so nothing has woken the task since it asked.

Key definitions: `Kernel.Live`, `Kernel.Due`, `Source`, `Source.Lawful`,
`Awaiting.step`.
Key theorems: `Live.of_inside`, `Live.next`, `Due.next`, `Awaiting.Inv.next`,
`Awaiting.at_rest`, `Awaiting.heard`.
-/
import RtAsync.Executor.Incarnation
import RtAsync.Executor.WakePolls

namespace RtAsync

open Function (update_self update_of_ne)
open Transition (Reach exec exists_step Meets reach_of_exec)

variable {N : ℕ} {T V : Type}

/-! ### Inside a future -/

/-- The task whose future an activation is inside. -/
def Frame.inside : Frame N T V → Option T
  | .run _ (.poll t _) => some t
  | _ => none

/-- The task whose future has returned `Ready`, until `TaskStorage::poll`
returns. -/
def Frame.finishing : Frame N T V → Option T
  | .run _ (.poll _ _) => none
  | f => f.within

theorem Frame.within_of_inside {f : Frame N T V} {t : T} (h : f.inside = some t) :
    f.within = some t := by
  unfold inside at h
  split at h
  · exact h
  · cases h

theorem Frame.within_of_finishing {f : Frame N T V} {t : T} (h : f.finishing = some t) :
    f.within = some t := by
  unfold finishing at h
  split at h
  · cases h
  · exact h

theorem Frame.not_finishing_of_inside {f : Frame N T V} {t u : T} (h : f.inside = some t) :
    f.finishing ≠ some u := by
  unfold inside at h
  split at h
  · exact fun hf => by cases hf
  · cases h

theorem Frame.setCall_inside (f : Frame N T V) (c : Option (Call N T)) :
    (f.setCall c).inside = f.inside := by
  unfold setCall
  split <;> rfl

theorem Frame.setCall_finishing (f : Frame N T V) (c : Option (Call N T)) :
    (f.setCall c).finishing = f.finishing := by
  unfold setCall
  split <;> rfl

section Step

variable [DecidableEq T] {s s' : Shared N T V} {f g : Frame N T V} {ev : Event T V}
  {gs : List (Frame N T V)} {t : T}

/-- A future is entered where its executor has dequeued the task. -/
theorem Next.inside (h : Next s f ev s' gs) (hg : g ∈ gs) (ht : g.inside = some t) :
    f.inside = some t ∨ (ev = .tick ∧ (∃ e, f = .run e (.got t)) ∧ s.Pollable t ∧ s' = s) := by
  rcases h.mem_frames hg with rfl | rfl | rfl | rfl
  · exact Or.inl ht
  · cases ht
  · cases ht
  cases h with
  | call hu hc =>
    rw [Frame.setCall_inside] at ht
    exact Or.inl ht
  | begin hu hc =>
    rw [Frame.setCall_inside] at ht
    exact Or.inl ht
  | clear sys => cases sys <;> cases ht
  | gotPoll hfn =>
    obtain rfl := Option.some.inj ht
    exact Or.inr ⟨rfl, ⟨_, rfl⟩, hfn, rfl⟩
  | setMie => exact Or.inl ht
  | external => exact Or.inl ht
  | _ => cases ht

/-- A future is left where it returns. -/
theorem Next.stays_inside (h : Next s f ev s' gs) (ht : f.inside = some t) :
    (∃ g ∈ gs, g.inside = some t) ∨
      ((∃ e, f = .run e (.poll t none)) ∧ (ev = .pending ∨ ∃ v, ev = .ready v)) := by
  cases h with
  | call hu hc => exact Or.inl ⟨_, List.mem_singleton_self _, (Frame.setCall_inside f _).trans ht⟩
  | begin hu hc => exact Or.inl ⟨_, List.mem_singleton_self _, (Frame.setCall_inside f _).trans ht⟩
  | setMie => exact Or.inl ⟨f, List.mem_singleton_self _, ht⟩
  | external => exact Or.inl ⟨f, List.mem_singleton_self _, ht⟩
  | trapSoft => exact Or.inl ⟨f, by simp, ht⟩
  | trapIsr => exact Or.inl ⟨f, by simp, ht⟩
  | pending e u =>
    obtain rfl := Option.some.inj ht
    exact Or.inr ⟨⟨e, rfl⟩, Or.inl rfl⟩
  | ready e u v =>
    obtain rfl := Option.some.inj ht
    exact Or.inr ⟨⟨e, rfl⟩, Or.inr ⟨v, rfl⟩⟩
  | clear sys => cases ht
  | _ => cases ht

/-- A future finishes where it returns `Ready`. -/
theorem Next.finishing (h : Next s f ev s' gs) (hg : g ∈ gs) (ht : g.finishing = some t) :
    f.finishing = some t ∨ ((∃ e, f = .run e (.poll t none)) ∧ ∃ v, ev = .ready v) := by
  rcases h.mem_frames hg with rfl | rfl | rfl | rfl
  · exact Or.inl ht
  · cases ht
  · cases ht
  cases h with
  | call hu hc =>
    rw [Frame.setCall_finishing] at ht
    exact Or.inl ht
  | begin hu hc =>
    rw [Frame.setCall_finishing] at ht
    exact Or.inl ht
  | clear sys => cases sys <;> cases ht
  | ready e u v =>
    obtain rfl := Option.some.inj ht
    exact Or.inr ⟨⟨e, rfl⟩, v, rfl⟩
  | setMie => exact Or.inl ht
  | external => exact Or.inl ht
  | storeResult => exact Or.inl ht
  | storeNull => exact Or.inl ht
  | dropInPlace => exact Or.inl ht
  | storeExited => exact Or.inl ht
  | _ => cases ht

/-- It has finished where the task is despawned. -/
theorem Next.stays_finishing (h : Next s f ev s' gs) (ht : f.finishing = some t) :
    (∃ g ∈ gs, g.finishing = some t) ∨ ∃ e, f = .run e (.notify t) := by
  cases h with
  | call hu hc =>
    exact Or.inl ⟨_, List.mem_singleton_self _, (Frame.setCall_finishing f _).trans ht⟩
  | begin hu hc =>
    exact Or.inl ⟨_, List.mem_singleton_self _, (Frame.setCall_finishing f _).trans ht⟩
  | setMie => exact Or.inl ⟨f, List.mem_singleton_self _, ht⟩
  | external => exact Or.inl ⟨f, List.mem_singleton_self _, ht⟩
  | trapSoft => exact Or.inl ⟨f, by simp, ht⟩
  | trapIsr => exact Or.inl ⟨f, by simp, ht⟩
  | storeResult => exact Or.inl ⟨_, List.mem_singleton_self _, ht⟩
  | storeNull => exact Or.inl ⟨_, List.mem_singleton_self _, ht⟩
  | dropInPlace => exact Or.inl ⟨_, List.mem_singleton_self _, ht⟩
  | storeExited => exact Or.inl ⟨_, List.mem_singleton_self _, ht⟩
  | notify =>
    obtain rfl := Option.some.inj ht
    exact Or.inr ⟨_, rfl⟩
  | _ => cases ht

/-- A task that is put into a queue has its back-pointer. -/
theorem Next.linked_ptr {e : Fin N} (h : Next s f ev s' gs) (ht : t ∈ s'.queue e) :
    t ∈ s.queue e ∨ s'.ptr t ≠ none := by
  cases h.queueEffect with
  | keep _ hq _ _ _ => exact Or.inl (hq ▸ ht)
  | flag _ _ _ _ _ _ _ _ hq _ _ _ => exact Or.inl (hq ▸ ht)
  | push u q _ _ _ _ _ hq _ hp _ =>
    rw [hq] at ht
    rcases mem_update_push ht with ht | ⟨rfl, rfl⟩
    · exact Or.inl ht
    · exact Or.inr (by simp [hp])
  | wake u q q' v _ _ _ _ hptr hq _ hp _ =>
    rw [hq] at ht
    rcases mem_update_push ht with ht | ⟨rfl, rfl⟩
    · exact Or.inl ht
    · exact Or.inr (by simp [hp, hptr])
  | storeNull _ _ _ _ _ hq _ _ _ => exact Or.inl (hq ▸ ht)
  | dequeue u us q _ _ _ hqe hq _ _ _ =>
    rw [hq] at ht
    exact Or.inl (mem_update_pop hqe ht)
  | drained _ _ _ _ _ hq _ _ _ => exact Or.inl (hq ▸ ht)

end Step

/-- Two activations inside `run` of one executor are the same. -/
theorem Nested.running_inj {k : Kernel N T V} (hk : Nested k) {f g : Frame N T V} {e : Fin N}
    (hf : f ∈ k.frames) (hg : g ∈ k.frames) (hfe : f.running = some e)
    (hge : g.running = some e) : f = g := by
  by_contra hne
  let R : Frame N T V → Frame N T V → Prop := fun a b =>
    ∀ x, a.running = some x → ∀ y, b.running = some y → x ≠ y
  have hsymm : Std.Symm R := ⟨fun a b h x hx y hy => (h y hy x hx).symm⟩
  have hapart : k.frames.Pairwise R := (List.pairwise_filterMap.mp hk.running_sorted).imp
    fun h x hx y hy => (h x hx y hy).ne
  exact hapart.forall hf hg hne e hfe e hge rfl

/-! ### A task that can be woken -/

namespace Kernel

/-- An activation is inside the future of `t`. -/
def Inside (k : Kernel N T V) (t : T) : Prop := ∃ f ∈ k.frames, f.inside = some t

/-- The task has its back-pointer, and a future that has not returned `Ready`. -/
structure Live (k : Kernel N T V) (t : T) : Prop where
  ptr : k.shared.ptr t ≠ none
  pollable : k.shared.Pollable t
  unfinished : ∀ f ∈ k.frames, f.finishing ≠ some t

/-- A wake of the task has begun that no poll has answered: the task is about to
be flagged, is flagged, or has been dequeued. -/
inductive Due (k : Kernel N T V) (t : T) : Prop
  | waking {f : Frame N T V} {c : Call N T} : f ∈ k.frames → f.calling = some c →
      c.waking = some t → Due k t
  | flagged : k.shared.flag t = true → Due k t
  | fetched {e : Fin N} : Frame.run e (.got t) ∈ k.frames → Due k t

/-- A queue holds the task, or an executor has dequeued it. -/
def Queued (k : Kernel N T V) (t : T) : Prop :=
  (∃ e, t ∈ k.shared.queue e) ∨ ∃ f ∈ k.frames, ∃ e, f.serving = some (t, e)

/-- The future is there while an activation is inside it, and up to its end the
task keeps the back-pointer that it got with its place in a queue. -/
structure Held (k : Kernel N T V) (t : T) : Prop where
  inside : k.Inside t → k.shared.Pollable t
  ptr : k.shared.Pollable t → (∀ f ∈ k.frames, f.finishing ≠ some t) → k.Queued t →
    k.shared.ptr t ≠ none

theorem Queued.inHand {k : Kernel N T V} {t : T} (h : k.Queued t) : ∃ e, k.InHand t e := by
  rcases h with ⟨e, he⟩ | ⟨f, hf, e, hs⟩
  · exact ⟨e, Or.inr (Or.inl he)⟩
  · exact ⟨e, Or.inr (Or.inr (Or.inr ⟨f, hf, hs⟩))⟩

/-- One activation at most is inside `TaskStorage::poll` of a task. -/
theorem Once.within_inj [DecidableEq T] {k : Kernel N T V} {t : T} {p : Phase}
    (hk : k.Once t p) (hn : Nested k) {f g : Frame N T V} (hf : f ∈ k.frames) (hg : g ∈ k.frames) (hft : f.within = some t)
    (hgt : g.within = some t) : f = g := by
  obtain ⟨e, hfs, hfe⟩ := Frame.serving_of_within hft
  obtain ⟨e', hgs, hge⟩ := Frame.serving_of_within hgt
  obtain rfl : e = e' := hk.one e e' (Or.inr (Or.inr (Or.inr ⟨f, hf, hfs⟩)))
    (Or.inr (Or.inr (Or.inr ⟨g, hg, hgs⟩)))
  exact hn.running_inj hf hg hfe hge

/-- The task that an activation is inside the future of can be woken. -/
theorem Live.of_inside [DecidableEq T] {k : Kernel N T V} {t : T} {p : Phase}
    (hk : k.Held t) (ho : k.Once t p) (hn : Nested k) (h : k.Inside t) : k.Live t := by
  have hpoll := hk.inside h
  obtain ⟨f, hf, ht⟩ := h
  have hno : ∀ g ∈ k.frames, g.finishing ≠ some t := fun g hg hgt => by
    obtain rfl := ho.within_inj hn hf hg (Frame.within_of_inside ht)
      (Frame.within_of_finishing hgt)
    exact Frame.not_finishing_of_inside ht hgt
  obtain ⟨e, hs, -⟩ := Frame.serving_of_within (Frame.within_of_inside ht)
  exact ⟨hk.ptr hpoll hno (Or.inr ⟨f, hf, e, hs⟩), hpoll, hno⟩

section Step

variable [DecidableEq T] {s s' : Shared N T V} {f : Frame N T V} {ev : Event T V}
  {fs gs : List (Frame N T V)} {t : T} {p : Phase}

theorem Inside.next (hk : Inside ⟨s, f :: fs⟩ t) (h : Next s f ev s' gs) :
    Inside ⟨s', gs ++ fs⟩ t ∨
      ((∃ e, f = .run e (.poll t none)) ∧ (ev = .pending ∨ ∃ v, ev = .ready v)) := by
  obtain ⟨g, hg, ht⟩ := hk
  rcases List.mem_cons.mp hg with rfl | hg
  · exact (h.stays_inside ht).imp_left fun ⟨g', hg', ht'⟩ => ⟨g', List.mem_append_left _ hg', ht'⟩
  · exact Or.inl ⟨g, List.mem_append_right _ hg, ht⟩

theorem Held.inside_next (hk : Held ⟨s, f :: fs⟩ t) (ho : Once ⟨s, f :: fs⟩ t p)
    (hn : Nested ⟨s, f :: fs⟩) (h : Next s f ev s' gs) (ht : Inside ⟨s', gs ++ fs⟩ t) :
    s'.Pollable t := by
  obtain ⟨g, hg, hgt⟩ := ht
  have hbefore : Inside ⟨s, f :: fs⟩ t ∨ s' = s ∧ s.Pollable t := by
    rcases List.mem_append.mp hg with hg | hg
    · rcases h.inside hg hgt with hf | ⟨-, -, hpoll, hs⟩
      · exact Or.inl ⟨f, List.mem_cons_self, hf⟩
      · exact Or.inr ⟨hs, hpoll⟩
    · exact Or.inl ⟨g, List.mem_cons_of_mem f hg, hgt⟩
  rcases hbefore with hin | ⟨rfl, hpoll⟩
  · rcases h.pollable (hk.inside hin) with hpoll | ⟨-, e, rfl⟩
    · exact hpoll
    · -- its poll function is replaced by the activation inside of it
      obtain ⟨g', hg', ht'⟩ := hin
      obtain rfl := ho.within_inj hn List.mem_cons_self hg' rfl (Frame.within_of_inside ht')
      cases ht'
  · exact hpoll

theorem Held.ptr_next (hk : Held ⟨s, f :: fs⟩ t) (ho : Once ⟨s, f :: fs⟩ t p)
    (h : Next s f ev s' gs) (hpoll : s'.Pollable t)
    (hno : ∀ g ∈ gs ++ fs, g.finishing ≠ some t) (hq : Queued ⟨s', gs ++ fs⟩ t) :
    s'.ptr t ≠ none := by
  intro hnone
  have hptr : s.ptr t = none := by
    rcases h.ptr t with hp | ⟨e, -, hp⟩ | ⟨hev, -, e, rfl⟩
    · rw [← hp]
      exact hnone
    · rw [hp] at hnone
      cases hnone
    · rcases h.stays_finishing (t := t) rfl with ⟨g, hg, ht⟩ | ⟨e', hf⟩
      · exact absurd ht (hno g (List.mem_append_left _ hg))
      · cases hf
  have hq' : Queued ⟨s, f :: fs⟩ t := by
    rcases hq with ⟨e, he⟩ | ⟨g, hg, e, hs⟩
    · rcases h.linked_ptr he with he | hp
      · exact Or.inl ⟨e, he⟩
      · exact absurd hnone hp
    · rcases List.mem_append.mp hg with hg | hg
      · rcases h.serving hg hs with hf | he
        · exact Or.inr ⟨f, List.mem_cons_self, e, hf⟩
        · exact Or.inl ⟨e, he⟩
      · exact Or.inr ⟨g, List.mem_cons_of_mem f hg, e, hs⟩
  have hpoll' : s.Pollable t := by
    cases h.taskEffect t with
    | keep hsame => exact hsame.pollFn.symm.trans hpoll
    | storage hst _ hfn =>
      obtain ⟨e, he⟩ := hq'.inHand
      exact absurd hst (ho.not_storing he List.mem_cons_self)
    | take _ _ hsame _ => exact hsame.pollFn.symm.trans hpoll
    | store _ _ hsame _ => exact hsame.pollFn.symm.trans hpoll
    | result _ _ _ hsame _ => exact hsame.pollFn.symm.trans hpoll
    | exited _ _ _ hfn =>
      rw [Shared.Pollable, hfn] at hpoll
      cases hpoll
    | notify _ _ _ _ hfn => exact hfn.symm.trans hpoll
  refine hk.ptr hpoll' (fun g hg ht => ?_) hq' hptr
  rcases List.mem_cons.mp hg with rfl | hg
  · rcases h.stays_finishing ht with ⟨g', hg', ht'⟩ | ⟨e, rfl⟩
    · exact hno g' (List.mem_append_left _ hg') ht'
    · exact ho.exited e List.mem_cons_self hpoll'
  · exact hno g (List.mem_append_right _ hg) ht

theorem Held.next (hk : Held ⟨s, f :: fs⟩ t) (ho : Once ⟨s, f :: fs⟩ t p)
    (hn : Nested ⟨s, f :: fs⟩) (h : Next s f ev s' gs) : Held ⟨s', gs ++ fs⟩ t :=
  ⟨hk.inside_next ho hn h, hk.ptr_next ho h⟩

/-- Until its future returns `Ready`. -/
theorem Live.next (hk : Live ⟨s, f :: fs⟩ t) (h : Next s f ev s' gs)
    (hev : (∃ e, f = .run e (.poll t none)) → ∀ v, ev ≠ .ready v) : Live ⟨s', gs ++ fs⟩ t := by
  have hf : f.finishing ≠ some t := hk.unfinished f List.mem_cons_self
  refine ⟨?_, ?_, fun g hg ht => ?_⟩
  · intro hnone
    rcases h.ptr t with hp | ⟨e, -, hp⟩ | ⟨-, -, e, rfl⟩
    · exact hk.ptr (hp.symm.trans hnone)
    · have hnone : s'.ptr t = none := hnone
      rw [hp] at hnone
      cases hnone
    · exact hf rfl
  · rcases h.pollable hk.pollable with hpoll | ⟨-, e, rfl⟩
    · exact hpoll
    · exact absurd rfl hf
  · rcases List.mem_append.mp hg with hg | hg
    · rcases h.finishing hg ht with ht' | ⟨hin, v, hv⟩
      · exact hf ht'
      · exact hev hin v hv
    · exact hk.unfinished g (List.mem_cons_of_mem f hg) ht

/-- Until a poll of it begins. -/
theorem Due.next (hk : Due ⟨s, f :: fs⟩ t) (hl : Live ⟨s, f :: fs⟩ t) (h : Next s f ev s' gs) :
    Due ⟨s', gs ++ fs⟩ t ∨ PollBegins t ⟨s, f :: fs⟩ ev := by
  cases hk with
  | flagged hflag =>
    rcases h.stays_flagged hflag with hflag | ⟨e, rfl⟩
    · exact Or.inl (.flagged hflag)
    · exact Or.inl (.fetched List.mem_cons_self)
  | @fetched e hg =>
    rcases List.mem_cons.mp hg with rfl | hg
    · rcases h.of_got with ⟨hev, -⟩ | ⟨hs, rfl⟩
      · exact Or.inr (pollBegins_iff.mpr ⟨hev, hl.pollable, e, fs, rfl⟩)
      · exact Or.inl (.fetched
          (List.mem_append_left _ (List.mem_append_right _ List.mem_cons_self)))
    · exact Or.inl (.fetched (List.mem_append_right _ hg))
  | @waking g c hg hc ht =>
    rcases List.mem_cons.mp hg with rfl | hg
    · rcases h.of_calling (Frame.user_of_calling hc) with ⟨rfl, -⟩ | ⟨hs, rfl⟩
      · obtain ⟨c', hstep, rfl⟩ := h.calling hc
        cases callStep_next hstep with
        | wakeNull hnull =>
          obtain rfl := Option.some.inj ht
          exact absurd hnull hl.ptr
        | wake hptr =>
          obtain rfl := Option.some.inj ht
          exact Or.inl (.waking List.mem_cons_self
            (Frame.setCall_calling (Frame.user_of_calling hc) _) rfl)
        | wakeSkip e hq =>
          obtain rfl := Option.some.inj ht
          exact Or.inl (.flagged (Shared.flag_runEnqueue s _))
        | wakeFlag e hq =>
          obtain rfl := Option.some.inj ht
          exact Or.inl (.flagged (Shared.flag_runEnqueue s _))
        | _ => cases ht
      · exact Or.inl (.waking (List.mem_append_left _ (List.mem_append_right _ List.mem_cons_self))
          hc ht)
    · exact Or.inl (.waking (List.mem_append_right _ hg) hc ht)

end Step

/-- In the idle loop no task is due. -/
theorem Idle.not_due [DecidableEq T] {k : Kernel N T V} (hk : k.Idle) (h : Reachable k)
    (hmie : k.shared.mie = true) (t : T) : ¬k.Due t := by
  have hframes : ∀ f ∈ k.frames, f = .base none := fun f hf => by
    rw [hk.frames] at hf
    exact List.mem_singleton.mp hf
  rintro (@⟨f, c, hf, hc, -⟩ | hflag | hg)
  · rw [hframes f hf] at hc
    cases hc
  · rw [idle_unflagged h hk hmie] at hflag
    cases hflag
  · cases hframes _ hg

/-- Nor is an activation inside a future. -/
theorem Idle.not_inside {k : Kernel N T V} (hk : k.Idle) (t : T) : ¬k.Inside t := by
  rintro ⟨f, hf, ht⟩
  rw [hk.frames] at hf
  rw [List.mem_singleton.mp hf] at ht
  cases ht

variable [DecidableEq T]

/-- What is kept about the task of a hart: it can be woken since it asked for
something, and is due if it has been woken since. -/
structure Wakeable (k : Kernel N T V) (t : T) (p : Phase) (asked woken : Bool) : Prop where
  reach : Reachable k
  once : k.Once t p
  held : k.Held t
  live : asked = true → k.Live t
  due : asked = true → woken = true → k.Due t

/-- The task stops asking where a poll of it begins, and where its future
returns `Ready`. -/
theorem Wakeable.next {k k' : Kernel N T V} {ev : Event T V} {t : T} {p p' : Phase}
    {asked asked' woken : Bool} (hk : k.Wakeable t p asked woken) (hs : step k ev = some k')
    (hp : p.next t ev = some p')
    (hasked : asked' = true → asked = true ∧ ¬PollBegins t k ev ∧
      ∀ e fs, k.frames = .run e (.poll t none) :: fs → ∀ v, ev ≠ .ready v) :
    k'.Wakeable t p' asked' woken := by
  have hn := (nested hk.reach).2
  have hreach : Reachable k' := hk.reach.tail trivial hs
  obtain ⟨hr, ho, hh, hl, hd⟩ := hk
  obtain ⟨f, fs, s', gs, hframes, rfl, h⟩ := step_next hs
  rw [hframes] at hn ho hh hl hd hasked
  refine ⟨hreach, ho.next hn hp h, hh.next ho hn h, fun ha => ?_, fun ha hw => ?_⟩
  · obtain ⟨ha, -, hev⟩ := hasked ha
    exact (hl ha).next h fun ⟨e, hf⟩ => hev e fs (by rw [hf])
  · obtain ⟨ha, hno, -⟩ := hasked ha
    exact ((hd ha hw).next (hl ha) h).resolve_right hno

theorem init_wakeable (t : T) (woken : Bool) :
    Wakeable (init : Kernel N T V) t .unspawned false woken := by
  have hnobody : ∀ e, ¬(init : Kernel N T V).InHand t e := by
    rintro e (he | he | ⟨f, hf, he⟩ | ⟨f, hf, he⟩)
    · cases he
    · cases he
    · obtain rfl := List.mem_singleton.mp hf
      cases he
    · obtain rfl := List.mem_singleton.mp hf
      cases he
  have hunused : (init : Kernel N T V).Unused t := ⟨rfl, hnobody, fun h => by cases h⟩
  refine ⟨.refl _, hunused.once, ⟨fun ⟨f, hf, ht⟩ => ?_, fun hpoll => ?_⟩, by simp, by simp⟩
  · obtain rfl := List.mem_singleton.mp hf
    cases ht
  · cases hpoll

end Kernel

/-! ### What a task awaits -/

variable {L I : Type}

/-- What a future polls and an interrupt handler feeds, by the accesses of both.
`isr` is what the handler does before it wakes a waker, and that waker. -/
structure Source (L I T : Type) where
  init : L
  /-- The `poll` is called with a waker. -/
  call : L → T → Option L
  /-- Its next access, and whether it enables interrupts. -/
  tick : L → Option (L × Bool)
  isr : L → I → Option (L × Option T)
  /-- A call is in progress. -/
  calling : L → Bool
  /-- The last one that returned did so with `Pending`. -/
  pending : L → Bool
  /-- The waker of the last call has been woken since the call began. -/
  woken : L → Bool

/-- `woken` is what its name says, for calls with the waker `t`. -/
structure Source.Lawful (S : Source L I T) (t : T) (Ok : L → Prop) : Prop where
  init : Ok S.init
  idle : S.calling S.init = false
  call : ∀ {l l'}, Ok l → S.calling l = false → S.call l t = some l' →
    Ok l' ∧ S.woken l' = false
  tick : ∀ {l l' b}, Ok l → S.tick l = some (l', b) →
    Ok l' ∧ (S.woken l' = true → S.woken l = true)
  isr : ∀ {l l' i w}, Ok l → S.isr l i = some (l', w) →
    Ok l' ∧ S.calling l' = S.calling l ∧ S.pending l' = S.pending l ∧
      (S.woken l = true → S.woken l' = true) ∧
      (S.woken l' = true → S.woken l = true ∨ w = some t)

/-- A source whose last call returned `Pending`, and whose waker has not been
woken since, is at rest. -/
def Source.Rests (S : Source L I T) (Ok Rest : L → Prop) : Prop :=
  ∀ {l}, Ok l → S.calling l = false → S.pending l = true → S.woken l = false → Rest l

variable [DecidableEq T]

/-- The innermost activation is inside the future of `t`, and in no call of the
executor. -/
def Kernel.atFuture (t : T) (k : Kernel N T V) : Bool :=
  match k.frames with
  | .run _ (.poll u none) :: _ => u = t
  | _ => false

/-- The innermost activation is an interrupt handler, with interrupts disabled. -/
def Kernel.inHandler (k : Kernel N T V) : Bool :=
  match k.frames with
  | .isr none :: _ => !k.shared.mie
  | _ => false

theorem Kernel.frames_of_atFuture {t : T} {k : Kernel N T V} (h : k.atFuture t = true) :
    ∃ e fs, k.frames = .run e (.poll t none) :: fs := by
  unfold atFuture at h
  split at h
  · rename_i e u fs hframes
    obtain rfl := of_decide_eq_true h
    exact ⟨e, fs, hframes⟩
  · cases h

theorem Kernel.inside_of_atFuture {t : T} {k : Kernel N T V} (h : k.atFuture t = true) :
    k.Inside t := by
  obtain ⟨e, fs, hframes⟩ := frames_of_atFuture h
  exact ⟨_, hframes ▸ List.mem_cons_self, rfl⟩

omit [DecidableEq T] in
theorem Kernel.frames_of_inHandler {k : Kernel N T V} (h : k.inHandler = true) :
    ∃ fs, k.frames = .isr none :: fs := by
  unfold inHandler at h
  split at h
  · rename_i fs hframes
    exact ⟨fs, hframes⟩
  · cases h

theorem Kernel.Inside.step {t : T} {k k' : Kernel N T V} {ev : Event T V} (hk : k.Inside t)
    (hs : k.step ev = some k') :
    k'.Inside t ∨ (k.atFuture t = true ∧ (ev = .pending ∨ ∃ v, ev = .ready v)) := by
  obtain ⟨f, fs, s', gs, hframes, rfl, h⟩ := step_next hs
  rw [hframes] at hk ⊢
  refine (hk.next h).imp_right fun ⟨⟨e, hf⟩, hev⟩ => ⟨?_, hev⟩
  rw [hf]
  exact decide_eq_true rfl

/-- A future is entered where a poll of it begins. -/
theorem Kernel.of_inside_step {t : T} {k k' : Kernel N T V} {ev : Event T V}
    (hs : k.step ev = some k') (h : k'.Inside t) : k.Inside t ∨ k.PollBegins t ev := by
  obtain ⟨f, fs, s', gs, hframes, rfl, hnext⟩ := step_next hs
  obtain ⟨g, hg, ht⟩ := h
  rw [hframes]
  rcases List.mem_append.mp hg with hg | hg
  · rcases hnext.inside hg ht with hf | ⟨hev, ⟨e, hf⟩, hpoll, -⟩
    · exact Or.inl ⟨f, List.mem_cons_self, hf⟩
    · exact Or.inr (Kernel.pollBegins_iff.mpr ⟨hev, hpoll, e, fs, by rw [hf]⟩)
  · exact Or.inl ⟨g, List.mem_cons_of_mem f hg, ht⟩

/-- What user code does by itself. -/
def Event.byUser : Event T V → Bool
  | .call _ => true
  | .pending => true
  | .ready _ => true
  | .setMie _ => true
  | _ => false

/-- A hart with a task `t` that is spawned once, and what its future awaits.
`asked` says that in the last poll of the future that has begun, the source was
polled; where that poll has returned, that it returned `Pending` after the last
poll of the source did. -/
structure Awaiting (L : Type) (N : ℕ) (T V : Type) where
  kernel : Kernel N T V
  phase : Phase
  source : L
  asked : Bool

inductive AwaitEvent (I T V : Type)
  | kernel (ev : Event T V)
  /-- The future polls the source. -/
  | call
  /-- The next access of that poll. -/
  | tick
  /-- An interrupt handler does the work for the source. -/
  | isr (i : I)

namespace Awaiting

variable (S : Source L I T) (t : T)

def init : Awaiting L N T V := ⟨.init, .unspawned, S.init, false⟩

/-- A step of the hart. -/
def hart (c : Awaiting L N T V) (ev : Event T V) : Option (Awaiting L N T V) :=
  (c.kernel.step ev).bind fun k => (c.phase.next t ev).map fun p =>
    { c with kernel := k, phase := p }

/-- `asked` after a step of the hart. -/
def askedAfter (c : Awaiting L N T V) (ev : Event T V) : Bool :=
  match ev, c.kernel.frames with
  | .tick, .run _ (.got u) :: _ => c.asked && u ≠ t
  | .pending, .run _ (.poll u _) :: _ => c.asked && (u ≠ t || S.pending c.source)
  | .ready _, .run _ (.poll u _) :: _ => c.asked && u ≠ t
  | _, _ => c.asked

/-- While it is inside a poll of the source, the future does nothing else. -/
def step (c : Awaiting L N T V) : AwaitEvent I T V → Option (Awaiting L N T V)
  | .kernel ev =>
    if S.calling c.source && c.kernel.atFuture t && ev.byUser then none
    else (c.hart t ev).map fun c' => { c' with asked := c.askedAfter S t ev }
  | .call =>
    if c.kernel.atFuture t && !S.calling c.source then
      (S.call c.source t).map fun l => { c with source := l, asked := true }
    else none
  | .tick =>
    if c.kernel.atFuture t then
      (S.tick c.source).bind fun (l, enables) =>
        let c' := { c with source := l }
        if enables then c'.hart t (.setMie true) else some c'
    else none
  | .isr i =>
    if c.kernel.inHandler then
      (S.isr c.source i).bind fun (l, woken) =>
        let c' := { c with source := l }
        match woken with
        | none => some c'
        | some w => c'.hart t (.call (.wake w))
    else none

/-! ### The invariant -/

variable {S t}

structure Inv (S : Source L I T) (t : T) (Ok : L → Prop) (c : Awaiting L N T V) : Prop where
  hart : c.kernel.Wakeable t c.phase c.asked (S.woken c.source)
  source : Ok c.source
  calling : S.calling c.source = true → c.kernel.Inside t
  waits : c.asked = true →
    c.kernel.Inside t ∨ (S.calling c.source = false ∧ S.pending c.source = true)

variable {Ok : L → Prop} {c c' : Awaiting L N T V}

theorem hart_some {ev : Event T V} (h : c.hart t ev = some c') :
    ∃ k p, c.kernel.step ev = some k ∧ c.phase.next t ev = some p ∧
      c' = { c with kernel := k, phase := p } := by
  obtain ⟨k, hk, h⟩ := Option.bind_eq_some_iff.mp h
  obtain ⟨p, hp, rfl⟩ := Option.map_eq_some_iff.mp h
  exact ⟨k, p, hk, hp, rfl⟩

theorem of_askedAfter {ev : Event T V} (h : c.askedAfter S t ev = true) :
    c.asked = true ∧ (¬c.kernel.PollBegins t ev ∧
      ∀ e fs, c.kernel.frames = .run e (.poll t none) :: fs → ∀ v, ev ≠ .ready v) ∧
      (c.kernel.atFuture t = true → ev = .pending → S.pending c.source = true) := by
  have hasked : c.asked = true := by
    unfold askedAfter at h
    split at h
    · exact (Bool.and_eq_true_iff.mp h).1
    · exact (Bool.and_eq_true_iff.mp h).1
    · exact (Bool.and_eq_true_iff.mp h).1
    · exact h
  refine ⟨hasked, ⟨?_, ?_⟩, ?_⟩
  · intro hb
    obtain ⟨rfl, -, e, fs, hframes⟩ := Kernel.pollBegins_iff.mp hb
    simp [askedAfter, hframes] at h
  · rintro e fs hframes v rfl
    simp [askedAfter, hframes] at h
  · rintro hat rfl
    obtain ⟨e, fs, hframes⟩ := Kernel.frames_of_atFuture hat
    simp only [askedAfter, hframes, Bool.and_eq_true, Bool.or_eq_true] at h
    simpa using h.2

/-- Outside of its future the task goes on asking until a poll of it begins. -/
theorem askedAfter_of_outside {ev : Event T V} (hpoll : c.kernel.shared.Pollable t)
    (hout : ¬c.kernel.Inside t) (hb : ¬c.kernel.PollBegins t ev) (hasked : c.asked = true) :
    c.askedAfter S t ev = true := by
  have hpolls : ∀ {e u call fs}, c.kernel.frames = .run e (.poll u call) :: fs → u ≠ t := by
    rintro e u call fs hframes rfl
    exact hout ⟨_, hframes ▸ List.mem_cons_self, rfl⟩
  unfold askedAfter
  split
  · rename_i e u fs hframes
    have hne : u ≠ t := by
      rintro rfl
      exact hb (Kernel.pollBegins_iff.mpr ⟨rfl, hpoll, e, fs, hframes⟩)
    simp [hasked, hne]
  · rename_i hframes
    simp [hasked, hpolls hframes]
  · rename_i hframes
    simp [hasked, hpolls hframes]
  · exact hasked

/-- A step of the hart that is not one of the future itself. -/
theorem Inv.hart_next (hI : Inv S t Ok c) {ev : Event T V} (hev : ev ≠ .tick)
    (hpending : ev ≠ .pending) (hready : ∀ v, ev ≠ .ready v) (h : c.hart t ev = some c') :
    Inv S t Ok c' := by
  obtain ⟨k, p, hk, hp, rfl⟩ := hart_some h
  have hin : c.kernel.Inside t → k.Inside t := fun hin =>
    (hin.step hk).resolve_right fun ⟨_, hret⟩ => hret.elim hpending fun ⟨v, hv⟩ => hready v hv
  refine ⟨hI.hart.next hk hp fun ha => ⟨ha, fun hb => hev (Kernel.pollBegins_iff.mp hb).1, fun _ _ _ => hready⟩, hI.source,
    fun hc => hin (hI.calling hc), fun ha => (hI.waits ha).imp_left hin⟩

theorem Inv.kernel_next (hI : Inv S t Ok c) {ev : Event T V}
    (h : step S t c (.kernel ev) = some c') : Inv S t Ok c' := by
  obtain ⟨hfree, h⟩ := Option.ite_none_left_eq_some.mp h
  obtain ⟨c₁, hc₁, rfl⟩ := Option.map_eq_some_iff.mp h
  obtain ⟨k, p, hk, hp, rfl⟩ := hart_some hc₁
  have hreturn : c.kernel.atFuture t = true → (ev = .pending ∨ ∃ v, ev = .ready v) →
      S.calling c.source = false := fun hat hev => by
    by_contra hcall
    have huser : ev.byUser = true := by
      rcases hev with rfl | ⟨v, rfl⟩
      · rfl
      · rfl
    exact hfree (by simp [hat, huser, Bool.eq_true_of_not_eq_false hcall])
  refine ⟨hI.hart.next hk hp fun ha => ⟨(of_askedAfter ha).1, (of_askedAfter ha).2.1⟩, hI.source,
    fun hc => ?_, fun ha => ?_⟩
  · rcases (hI.calling hc).step hk with hin | ⟨hat, hev⟩
    · exact hin
    · have hcall := hreturn hat hev
      rw [hc] at hcall
      cases hcall
  · obtain ⟨hasked, ⟨-, hready⟩, hpending⟩ := of_askedAfter ha
    rcases hI.waits hasked with hin | hrest
    · rcases hin.step hk with hin | ⟨hat, hev⟩
      · exact Or.inl hin
      · refine Or.inr ⟨hreturn hat hev, ?_⟩
        rcases hev with rfl | ⟨v, rfl⟩
        · exact hpending hat rfl
        · obtain ⟨e, fs, hframes⟩ := Kernel.frames_of_atFuture hat
          exact absurd rfl (hready e fs hframes v)
    · exact Or.inr hrest

theorem Inv.call_next (hS : S.Lawful t Ok) (hI : Inv S t Ok c)
    (h : step S t c .call = some c') : Inv S t Ok c' := by
  obtain ⟨hguard, h⟩ := Option.ite_none_right_eq_some.mp h
  obtain ⟨l, hl, rfl⟩ := Option.map_eq_some_iff.mp h
  simp only [Bool.and_eq_true, Bool.not_eq_true'] at hguard
  have hin := Kernel.inside_of_atFuture hguard.1
  obtain ⟨hok, hwoken⟩ := hS.call hI.source hguard.2 hl
  obtain ⟨hr, ho, hh, -, -⟩ := hI.hart
  refine ⟨⟨hr, ho, hh, fun _ => .of_inside hh ho (Kernel.nested hr).2 hin, fun _ hw => ?_⟩, hok,
    fun _ => hin, fun _ => Or.inl hin⟩
  rw [hwoken] at hw
  cases hw

theorem Inv.tick_next (hS : S.Lawful t Ok) (hI : Inv S t Ok c)
    (h : step S t c .tick = some c') : Inv S t Ok c' := by
  obtain ⟨hat, h⟩ := Option.ite_none_right_eq_some.mp h
  obtain ⟨⟨l, enables⟩, hl, h⟩ := Option.bind_eq_some_iff.mp h
  obtain ⟨hok, hwoken⟩ := hS.tick hI.source hl
  have hin := Kernel.inside_of_atFuture hat
  have hI' : Inv S t Ok { c with source := l } :=
    ⟨⟨hI.hart.reach, hI.hart.once, hI.hart.held, hI.hart.live,
      fun ha hw => hI.hart.due ha (hwoken hw)⟩, hok, fun _ => hin, fun _ => Or.inl hin⟩
  cases enables with
  | false => exact Option.some.inj h ▸ hI'
  | true => exact hI'.hart_next (by simp) (by simp) (by simp) h

theorem Inv.isr_next (hS : S.Lawful t Ok) (hI : Inv S t Ok c) {i : I}
    (h : step S t c (.isr i) = some c') : Inv S t Ok c' := by
  obtain ⟨hat, h⟩ := Option.ite_none_right_eq_some.mp h
  obtain ⟨⟨l, w⟩, hl, h⟩ := Option.bind_eq_some_iff.mp h
  obtain ⟨hok, hcalling, hpending, -, hwoken⟩ := hS.isr hI.source hl
  have hsource : ∀ c₁ : Awaiting L N T V, Inv S t Ok { c₁ with source := c.source } →
      (c₁.asked = true → S.woken l = true → c₁.kernel.Due t) →
      Inv S t Ok { c₁ with source := l } := by
    rintro c₁ ⟨hw, -, hc, ha⟩ hdue
    exact ⟨⟨hw.reach, hw.once, hw.held, hw.live, hdue⟩, hok, fun h => hc (hcalling.symm.trans h),
      fun h => (ha h).imp_right fun ⟨h₁, h₂⟩ => ⟨hcalling.trans h₁, hpending.trans h₂⟩⟩
  cases w with
  | none =>
    obtain rfl := Option.some.inj h
    refine hsource c hI fun ha hw => hI.hart.due ha ?_
    exact (hwoken hw).resolve_right (by simp)
  | some w =>
    obtain ⟨k, p, hk, hp, rfl⟩ := hart_some h
    have hstep : c.hart t (.call (.wake w)) = some { c with kernel := k, phase := p } := by
      have hk : c.kernel.step (.call (.wake w)) = some k := hk
      have hp : c.phase.next t (.call (.wake w) : Event T V) = some p := hp
      simp only [Awaiting.hart, hk, hp, Option.bind_some, Option.map_some]
    have hI' := hI.hart_next (by simp) (by simp) (by simp) hstep
    refine hsource { c with kernel := k, phase := p } hI' fun ha hw => ?_
    rcases hwoken hw with hw | hw
    · exact hI'.hart.due ha hw
    · -- the wake begins
      obtain rfl := Option.some.inj hw
      obtain ⟨fs, hframes⟩ := Kernel.frames_of_inHandler hat
      have hk' : k = ⟨c.kernel.shared, .isr (some (.wake w)) :: fs⟩ := by
        simpa [Kernel.step, frameStep, hframes, Frame.user, callStart, Frame.setCall] using hk.symm
      rw [hk']
      exact .waking List.mem_cons_self rfl rfl

theorem Inv.next (hS : S.Lawful t Ok) {ev : AwaitEvent I T V} (hI : Inv S t Ok c)
    (h : step S t c ev = some c') : Inv S t Ok c' := by
  cases ev with
  | kernel ev => exact hI.kernel_next h
  | call => exact hI.call_next hS h
  | tick => exact hI.tick_next hS h
  | isr i => exact hI.isr_next hS h

theorem inv_of_reach (hS : S.Lawful t Ok) (h : Reach (step S t) (init S) c) : Inv S t Ok c :=
  h.invariant (fun _ _ _ hI hs => hI.next hS hs) 
    ⟨Kernel.init_wakeable t _, hS.init, fun h => by simp [init, hS.idle] at h, by simp [init]⟩

/-- Outside of its future, a task that asked waits. -/
theorem Inv.outside (hI : Inv S t Ok c) (hasked : c.asked = true) (hout : ¬c.kernel.Inside t) :
    S.calling c.source = false ∧ S.pending c.source = true :=
  (hI.waits hasked).resolve_left hout

/-! ### At rest -/

variable {Rest : L → Prop}

/-- **A task at rest has nothing to take.** In the idle loop with interrupts
enabled, the source of a task that waits is at rest. -/
theorem at_rest (hS : S.Lawful t Ok) (hrest : S.Rests Ok Rest)
    (h : Reach (step S t) (init S) c) (hidle : c.kernel.Idle)
    (hmie : c.kernel.shared.mie = true) (hasked : c.asked = true) : Rest c.source := by
  have hI := inv_of_reach hS h
  obtain ⟨hcalling, hpending⟩ := hI.outside hasked (hidle.not_inside t)
  refine hrest hI.source hcalling hpending ?_
  by_contra hwoken
  exact hidle.not_due hI.hart.reach hmie t
    (hI.hart.due hasked (Bool.eq_true_of_not_eq_false hwoken))

/-- The future of `t` is polled. -/
def Polled (t : T) (c : Awaiting L N T V) : AwaitEvent I T V → Prop
  | .kernel ev => c.kernel.PollBegins t ev
  | _ => False

/-- The task waits, outside of its future, and has been woken since it asked. -/
structure Called (S : Source L I T) (t : T) (c : Awaiting L N T V) : Prop where
  asked : c.asked = true
  outside : ¬c.kernel.Inside t
  woken : S.woken c.source = true

theorem Called.kernel_next (hI : Inv S t Ok c) (hc : Called S t c) {ev : Event T V}
    (h : step S t c (.kernel ev) = some c') : Called S t c' ∨ c.kernel.PollBegins t ev := by
  obtain ⟨-, h⟩ := Option.ite_none_left_eq_some.mp h
  obtain ⟨c₁, hc₁, rfl⟩ := Option.map_eq_some_iff.mp h
  obtain ⟨k, p, hk, hp, rfl⟩ := hart_some hc₁
  by_cases hb : c.kernel.PollBegins t ev
  · exact Or.inr hb
  · refine Or.inl ⟨?_, fun hin => ?_, hc.woken⟩
    · exact askedAfter_of_outside (hI.hart.live hc.asked).pollable hc.outside hb hc.asked
    · exact (Kernel.of_inside_step hk hin).elim hc.outside hb

theorem Called.next (hS : S.Lawful t Ok) (hI : Inv S t Ok c) (hc : Called S t c)
    {ev : AwaitEvent I T V} (h : step S t c ev = some c') :
    Called S t c' ∨ Polled t c ev := by
  cases ev with
  | kernel ev => exact hc.kernel_next hI h
  | call =>
    obtain ⟨hguard, -⟩ := Option.ite_none_right_eq_some.mp h
    exact absurd (Kernel.inside_of_atFuture (Bool.and_eq_true_iff.mp hguard).1) hc.outside
  | tick =>
    obtain ⟨hat, -⟩ := Option.ite_none_right_eq_some.mp h
    exact absurd (Kernel.inside_of_atFuture hat) hc.outside
  | isr i =>
    obtain ⟨-, h⟩ := Option.ite_none_right_eq_some.mp h
    obtain ⟨⟨l, w⟩, hl, h⟩ := Option.bind_eq_some_iff.mp h
    have hwoken : S.woken l = true := (hS.isr hI.source hl).2.2.2.1 hc.woken
    cases w with
    | none => exact Option.some.inj h ▸ Or.inl ⟨hc.asked, hc.outside, hwoken⟩
    | some w =>
      obtain ⟨k, p, hk, -, rfl⟩ := hart_some h
      refine Or.inl ⟨hc.asked, fun hin => ?_, hwoken⟩
      rcases Kernel.of_inside_step hk hin with hin | hb
      · exact hc.outside hin
      · cases (Kernel.pollBegins_iff.mp hb).1

/-- **A task that waits is heard.** Where its source is not at rest, every run
to the idle loop with interrupts enabled begins a poll of its future. -/
theorem heard (hS : S.Lawful t Ok) (hrest : S.Rests Ok Rest) (h : Reach (step S t) (init S) c)
    (hasked : c.asked = true) (hout : ¬c.kernel.Inside t) (hne : ¬Rest c.source)
    {es : List (AwaitEvent I T V)} (he : exec (step S t) c es = some c') (hidle : c'.kernel.Idle)
    (hmie : c'.kernel.shared.mie = true) : Meets (step S t) (Polled t) c es := by
  have hI := inv_of_reach hS h
  have hc : Called S t c := by
    obtain ⟨hcalling, hpending⟩ := hI.outside hasked hout
    refine ⟨hasked, hout, ?_⟩
    by_contra hwoken
    exact hne (hrest hI.source hcalling hpending (Bool.eq_false_of_not_eq_true hwoken))
  have hend : ¬(Inv S t Ok c' ∧ Called S t c') := fun ⟨hI', hc'⟩ =>
    hidle.not_due hI'.hart.reach hmie t (hI'.hart.due hc'.asked hc'.woken)
  obtain ⟨es₁, ev, es₂, c₁, c₂, rfl, h₁, h₂, hpolled, -⟩ :=
    exists_step (fun c : Awaiting L N T V => Inv S t Ok c ∧ Called S t c) (Polled t)
      (fun c ev c' hs ⟨hI, hc⟩ => (hc.next hS hI hs).imp_left fun hc' => ⟨hI.next hS hs, hc'⟩)
      he ⟨hI, hc⟩ hend
  exact ⟨es₁, ev, es₂, c₁, c₂, rfl, h₁, h₂, hpolled⟩

end Awaiting

/-! ### Scripts -/

namespace AwaitEvent

def hart (es : List (Event T V)) : List (AwaitEvent I T V) := es.map .kernel

/-- `main` enables interrupts and spawns `t`. -/
def spawnTask (t : T) : List (AwaitEvent I T V) := hart (.setMie true :: Event.spawnTask ⟨0⟩ t)

/-- `MachineSoft`, up to the future of the task that it dequeues. -/
def enter : List (AwaitEvent I T V) := hart (Event.machineSoft ++ [.tick])

/-- The future returns `Pending`, and `MachineSoft` finds no other task. -/
def leave : List (AwaitEvent I T V) := hart (.pending :: .replicate 5 .tick)

end AwaitEvent

end RtAsync

/-
# The run queues, the flags and the enqueuers in flight

`RUN_QUEUED` is set outside the critical section that pushes the task, so an
activation can stand between the two with the push owed (`Frame.push`). What
is conserved is a balance: the links of a task in all queues and the pushes
owed for it are together one if the flag is set and none if it is clear. So a
task is linked at most once and nobody pushes a linked node.

Key definitions: `Frame.push`, `QueueEffect`, `Shared.links`, `Kernel.owed`,
`Kernel.Balanced`.
Key theorems: `Next.queueEffect`, `Next.linked`, `Next.stays_linked`,
`Next.ptr`, `Next.push`, `Next.owes`, `Kernel.balanced`,
`Kernel.runQueue_not_corrupted`.
-/
import Mathlib.Algebra.BigOperators.Fin
import Mathlib.Algebra.Order.BigOperators.Group.Finset
import RtAsync.Executor.Steps

namespace RtAsync

open Function (update update_self update_of_ne update_eq_self)
open Transition (Steps)

variable {N : ℕ} {T V : Type}

/-! ### What steps do to the queues -/

namespace Shared

/-- `RUN_QUEUED` of a task. -/
def flag (s : Shared N T V) (t : T) : Bool := (s.tasks t).state.runQueued

/-- `executor_ptr` of a task. -/
def ptr (s : Shared N T V) (t : T) : Option (Fin N) := (s.tasks t).executorPtr

variable [DecidableEq T]

theorem setTask_flag (s : Shared N T V) (t : T) (i : TaskInfo N T V) :
    (s.setTask t i).flag = update s.flag t i.state.runQueued := by
  funext u
  by_cases hu : u = t
  · subst hu
    simp [flag, setTask]
  · simp [flag, setTask, hu]

theorem setTask_ptr (s : Shared N T V) (t : T) (i : TaskInfo N T V) :
    (s.setTask t i).ptr = update s.ptr t i.executorPtr := by
  funext u
  by_cases hu : u = t
  · subst hu
    simp [ptr, setTask]
  · simp [ptr, setTask, hu]

/-- Writing other fields of the task leaves the flags alone. -/
theorem setTask_flag_eq (s : Shared N T V) (t : T) {i : TaskInfo N T V}
    (hi : i.state.runQueued = (s.tasks t).state.runQueued) : (s.setTask t i).flag = s.flag := by
  rw [setTask_flag, hi]
  exact update_eq_self t s.flag

theorem setTask_ptr_eq (s : Shared N T V) (t : T) {i : TaskInfo N T V}
    (hi : i.executorPtr = (s.tasks t).executorPtr) : (s.setTask t i).ptr = s.ptr := by
  rw [setTask_ptr, hi]
  exact update_eq_self t s.ptr

theorem runEnqueue_flag (s : Shared N T V) (t : T) :
    (s.runEnqueue t).1.flag = update s.flag t true := setTask_flag s t _

theorem flag_runEnqueue (s : Shared N T V) (t : T) : (s.runEnqueue t).1.flag t = true := by
  rw [runEnqueue_flag, update_self]

theorem runEnqueue_ptr (s : Shared N T V) (t : T) : (s.runEnqueue t).1.ptr = s.ptr :=
  setTask_ptr_eq s t rfl


theorem pushed_flag (s : Shared N T V) (e : Fin N) (t : T) (bm : PriorityBitmap 64) :
    (s.pushed e t bm).flag = s.flag := setTask_flag_eq s t rfl

theorem pushed_ptr (s : Shared N T V) (e : Fin N) (t : T) (bm : PriorityBitmap 64) :
    (s.pushed e t bm).ptr = update s.ptr t (some e) := setTask_ptr s t _

theorem despawned_flag (s : Shared N T V) (t : T) : (s.despawned t).flag = s.flag :=
  setTask_flag_eq s t rfl

theorem despawned_ptr (s : Shared N T V) (t : T) : (s.despawned t).ptr = s.ptr :=
  setTask_ptr_eq s t rfl

end Shared

/-- The push that a call owes: it has set the flag of the task and has not
pushed the task yet. -/
def Call.push : Call N T → Option (T × Fin N)
  | .wakePush t e => some (t, e)
  | .spawnPush e t => some (t, e)
  | _ => none

/-- The push that an activation owes. -/
def Frame.push (f : Frame N T V) : Option (T × Fin N) := f.calling.bind Call.push

theorem Frame.push_call {f : Frame N T V} {c : Call N T} (h : f.user = some (some c)) :
    f.push = c.push := by
  rw [push, calling_eq h, Option.bind_some]

theorem Frame.push_idle {f : Frame N T V} (h : f.user = some none) : f.push = none := by
  rw [push, calling_eq h, Option.bind_none]

theorem Frame.push_setCall {f : Frame N T V} {c : Option (Call N T)} (h : f.user = some c)
    (c' : Option (Call N T)) : (f.setCall c').push = c'.bind Call.push := by
  rw [push, setCall_calling h]

variable [DecidableEq T]

/-- What a step can do to the queues, the flags, the back-pointers, the bitmap
and the pushes owed. -/
inductive QueueEffect (s : Shared N T V) (f : Frame N T V) (ev : Event T V) (s' : Shared N T V)
    (gs : List (Frame N T V)) : Prop
  | keep : gs.filterMap Frame.push = [f].filterMap Frame.push → s'.queue = s.queue →
      s'.flag = s.flag → s'.ptr = s.ptr → s'.bitmap = s.bitmap → QueueEffect s f ev s' gs
  | flag (t : T) (e : Fin N) (f' : Frame N T V) : ev = .tick → gs = [f'] →
      f.calling = some (.wakeFlag t e) ∨ f.calling = some (.spawnFlag e t) →
      f'.push = some (t, e) → s.flag t = false → s'.queue = s.queue →
      s'.flag = update s.flag t true → s'.ptr = s.ptr → s'.bitmap = s.bitmap →
      QueueEffect s f ev s' gs
  | push (t : T) (e : Fin N) (f' : Frame N T V) : ev = .tick → gs = [f'] →
      f.push = some (t, e) → f'.push = none → s'.queue = update s.queue e (s.queue e ++ [t]) →
      s'.flag = s.flag → s'.ptr = update s.ptr t (some e) → s.bitmap.set e = some s'.bitmap →
      QueueEffect s f ev s' gs
  | wake (t : T) (e q : Fin N) (u : T) : ev = .tick → f = .run q (.notify u) →
      gs = [.run q .top] → s.flag t = false → s.ptr t = some e →
      s'.queue = update s.queue e (s.queue e ++ [t]) → s'.flag = update s.flag t true →
      s'.ptr = s.ptr → s.bitmap.set e = some s'.bitmap → QueueEffect s f ev s' gs
  | storeNull (t : T) (q : Fin N) : ev = .tick → f = .run q (.storeNull t) →
      gs = [.run q (.dropInPlace t none)] → s'.queue = s.queue → s'.flag = s.flag →
      s'.ptr = update s.ptr t none → s'.bitmap = s.bitmap → QueueEffect s f ev s' gs
  | dequeue (t : T) (ts : List T) (e : Fin N) : ev = .tick → f = .run e .top →
      gs = [.run e (.got t)] → s.queue e = t :: ts → s'.queue = update s.queue e ts →
      s'.flag = update s.flag t false → s'.ptr = s.ptr → s'.bitmap = s.bitmap →
      QueueEffect s f ev s' gs
  | drained (e : Fin N) : ev = .tick → f = .run e .top → gs = [.disable e] →
      s.queue e = [] → s'.queue = s.queue → s'.flag = s.flag → s'.ptr = s.ptr →
      s.bitmap.clear e = some s'.bitmap → QueueEffect s f ev s' gs

omit [DecidableEq T] in
theorem Frame.push_of_flag {f : Frame N T V} {t : T} {e : Fin N}
    (h : f.calling = some (.wakeFlag t e) ∨ f.calling = some (.spawnFlag e t)) : f.push = none := by
  rcases h with h | h
  · rw [push, h]
    rfl
  · rw [push, h]
    rfl

omit [DecidableEq T] in
theorem Frame.calling_flag {f : Frame N T V} {t : T} {e : Fin N} {c : Call N T}
    (hu : f.user = some (some c)) (hc : c = .wakeFlag t e ∨ c = .spawnFlag e t) :
    f.calling = some (.wakeFlag t e) ∨ f.calling = some (.spawnFlag e t) := by
  rw [calling_eq hu]
  exact hc.imp (congrArg some) (congrArg some)

/-- A `fetch_or` of `run_enqueue` that finds the flag clear: the enqueuer owes
a push. -/
theorem QueueEffect.of_flag {s : Shared N T V} {f : Frame N T V} {t : T} {e : Fin N}
    {c c' : Call N T} (hu : f.user = some (some c)) (hc : c = .wakeFlag t e ∨ c = .spawnFlag e t)
    (hc' : c'.push = some (t, e)) (hflag : s.flag t = false) :
    QueueEffect s f .tick (s.runEnqueue t).1 [f.setCall (some c')] := by
  have hcall := Frame.calling_flag hu hc
  have hf' : (f.setCall (some c')).push = some (t, e) := by
    rw [Frame.push_setCall hu, Option.bind_some, hc']
  exact .flag t e _ rfl rfl hcall hf' hflag rfl (s.runEnqueue_flag t) (s.runEnqueue_ptr t) rfl

/-- One that finds it set. -/
theorem QueueEffect.of_skip {s : Shared N T V} {f : Frame N T V} {t : T} {e : Fin N}
    {c : Call N T} (hu : f.user = some (some c)) (hc : c = .wakeFlag t e ∨ c = .spawnFlag e t)
    (hflag : s.flag t = true) :
    QueueEffect s f .tick (s.runEnqueue t).1 [f.setCall none] := by
  have hcall := Frame.calling_flag hu hc
  have hf' : (f.setCall none).push = none := by rw [Frame.push_setCall hu, Option.bind_none]
  refine .keep ?_ rfl ?_ (s.runEnqueue_ptr t) rfl
  · rw [List.filterMap_cons_none hf', List.filterMap_cons_none (Frame.push_of_flag hcall)]
  · rw [s.runEnqueue_flag t, ← hflag]
    exact update_eq_self t s.flag

/-- A critical section of `Executor::enqueue`. -/
theorem QueueEffect.of_push {s : Shared N T V} {f : Frame N T V} {t : T} {e : Fin N}
    {c c' : Call N T} {bm : PriorityBitmap 64} (hu : f.user = some (some c))
    (hc : c.push = some (t, e)) (hc' : c'.push = none) (hbm : s.bitmap.set e = some bm) :
    QueueEffect s f .tick (s.pushed e t bm) [f.setCall (some c')] := by
  have hf : f.push = some (t, e) := by rw [Frame.push_call hu, hc]
  have hf' : (f.setCall (some c')).push = none := by
    rw [Frame.push_setCall hu, Option.bind_some, hc']
  exact .push t e _ rfl rfl hf hf' rfl (s.pushed_flag e t bm) (s.pushed_ptr e t bm) hbm

/-- A call that neither owes a push nor leaves one owed. -/
theorem QueueEffect.of_calls {s s' : Shared N T V} {f : Frame N T V} {ev : Event T V}
    {c c' : Option (Call N T)} (hu : f.user = some c) (hc : c.bind Call.push = none)
    (hc' : c'.bind Call.push = none) (hq : s'.queue = s.queue) (hflag : s'.flag = s.flag)
    (hptr : s'.ptr = s.ptr) (hbm : s'.bitmap = s.bitmap) :
    QueueEffect s f ev s' [f.setCall c'] := by
  have hf : f.push = none := by rw [Frame.push, Frame.calling_eq hu, hc]
  have hf' : (f.setCall c').push = none := by rw [Frame.push_setCall hu, hc']
  refine .keep ?_ hq hflag hptr hbm
  rw [List.filterMap_cons_none hf', List.filterMap_cons_none hf]

theorem callStep_queueEffect {s s' : Shared N T V} {f : Frame N T V} {c : Call N T}
    {c' : Option (Call N T)} (hu : f.user = some (some c)) (h : callStep s c = some (s', c')) :
    QueueEffect s f .tick s' [f.setCall c'] := by
  cases callStep_next h with
  | wakeSkip e hq => exact .of_skip hu (Or.inl rfl) hq
  | spawnSkip e hq => exact .of_skip hu (Or.inr rfl) hq
  | wakeFlag e hq => exact .of_flag hu (Or.inl rfl) rfl hq
  | spawnFlag e hq => exact .of_flag hu (Or.inr rfl) rfl hq
  | wakePush hbm => exact .of_push hu rfl rfl hbm
  | spawnPush hbm => exact .of_push hu rfl rfl hbm
  | wakeNull => exact .of_calls hu rfl rfl rfl rfl rfl rfl
  | wake => exact .of_calls hu rfl rfl rfl rfl rfl rfl
  | joinWait => exact .of_calls hu rfl rfl rfl rfl rfl rfl
  | spawnPend => exact .of_calls hu rfl rfl rfl rfl rfl rfl
  | spawnQuiet => exact .of_calls hu rfl rfl rfl rfl rfl rfl
  | pendMark => exact .of_calls hu rfl rfl rfl rfl rfl rfl
  | pendSend => exact .of_calls hu rfl rfl rfl rfl rfl rfl
  | _ =>
    -- the other accesses write fields of one task that are neither
    exact .of_calls hu rfl rfl rfl (Shared.setTask_flag_eq _ _ rfl) (Shared.setTask_ptr_eq _ _ rfl)
      rfl

theorem callStart_shared {s s' : Shared N T V} {r : Request T} {c : Call N T}
    (h : callStart s r = some (s', c)) : (∃ tk, s' = { s with tokens := tk }) ∧ c.push = none := by
  cases callStart_next h with
  | _ => exact ⟨⟨_, rfl⟩, rfl⟩

theorem notifyLocked_queueEffect {s s' : Shared N T V} {q : Fin N} {u : T}
    (h : s.notifyLocked u = some s') :
    QueueEffect s (.run q (.notify u)) .tick s' [.run q .top] := by
  have hf : (s.despawned u).flag = s.flag := s.despawned_flag u
  have hp : (s.despawned u).ptr = s.ptr := s.despawned_ptr u
  rcases Shared.notifyLocked_some h with ⟨-, rfl⟩ | ⟨w, -, hw⟩
  · exact .keep rfl rfl hf hp rfl
  · rcases Shared.wakeLocked_some hw with ⟨-, rfl⟩ | ⟨e, he, ⟨hq, rfl⟩ | ⟨hq, bm, hbm, rfl⟩⟩
    · exact .keep rfl rfl hf hp rfl
    · have hflag : (s.despawned u).flag w = true := hq
      refine .keep rfl rfl ?_ ((Shared.runEnqueue_ptr _ w).trans hp) rfl
      rw [Shared.runEnqueue_flag, ← hflag, ← hf]
      exact update_eq_self w (s.despawned u).flag
    · have hflag : (s.despawned u).flag w = false := hq
      have hptr : (s.despawned u).ptr w = some e := he
      rw [hf] at hflag
      refine .wake w e q u rfl rfl rfl hflag (hp ▸ hptr) rfl ?_ ?_ hbm
      · show (Shared.pushed _ e w bm).flag = _
        rw [Shared.pushed_flag, Shared.runEnqueue_flag, hf]
      · show (Shared.pushed _ e w bm).ptr = _
        rw [Shared.pushed_ptr, Shared.runEnqueue_ptr, ← hptr, hp]
        exact update_eq_self w s.ptr

theorem Next.queueEffect {s s' : Shared N T V} {f : Frame N T V} {ev : Event T V}
    {gs : List (Frame N T V)} (h : Next s f ev s' gs) : QueueEffect s f ev s' gs := by
  cases h with
  | call hu hc => exact callStep_queueEffect hu hc
  | begin hu hc =>
    obtain ⟨⟨tk, rfl⟩, hpush⟩ := callStart_shared hc
    exact .of_calls hu rfl hpush rfl rfl rfl rfl
  | clear sys => exact .keep (by cases sys <;> rfl) rfl rfl rfl rfl
  | dequeue hq =>
    exact .dequeue _ _ _ rfl rfl rfl hq rfl (Shared.setTask_flag _ _ _) (Shared.setTask_ptr_eq _ _ rfl)
      rfl
  | drained hq hbm => exact .drained _ rfl rfl rfl hq rfl rfl rfl hbm
  | ready e t v =>
    exact .keep rfl rfl (Shared.setTask_flag_eq _ _ rfl) (Shared.setTask_ptr_eq _ _ rfl) rfl
  | storeResult e t v =>
    exact .keep rfl rfl (Shared.setTask_flag_eq _ _ rfl) (Shared.setTask_ptr_eq _ _ rfl) rfl
  | storeNull e t =>
    exact .storeNull t e rfl rfl rfl rfl (Shared.setTask_flag_eq _ _ rfl) (Shared.setTask_ptr _ _ _) rfl
  | dropInPlace e t =>
    exact .keep rfl rfl (Shared.setTask_flag_eq _ _ rfl) (Shared.setTask_ptr_eq _ _ rfl) rfl
  | storeExited e t =>
    exact .keep rfl rfl (Shared.setTask_flag_eq _ _ rfl) (Shared.setTask_ptr_eq _ _ rfl) rfl
  | notify hn => exact notifyLocked_queueEffect hn
  | _ => exact .keep rfl rfl rfl rfl rfl

/-! ### Links and back-pointers -/

omit [DecidableEq T] in
theorem mem_update_push {q : Fin N → List T} {e e' : Fin N} {t u : T}
    (h : t ∈ update q e (q e ++ [u]) e') : t ∈ q e' ∨ (t = u ∧ e' = e) := by
  by_cases he : e' = e
  · subst he
    rw [update_self] at h
    rcases List.mem_append.mp h with h | h
    · exact Or.inl h
    · exact Or.inr ⟨List.mem_singleton.mp h, rfl⟩
  · rw [update_of_ne he] at h
    exact Or.inl h

omit [DecidableEq T] in
theorem mem_update_pop {q : Fin N → List T} {e e' : Fin N} {t u : T} {ts : List T}
    (hq : q e = t :: ts) (h : u ∈ update q e ts e') : u ∈ q e' := by
  by_cases he : e' = e
  · subst he
    rw [update_self] at h
    rw [hq]
    exact List.mem_cons_of_mem t h
  · rwa [update_of_ne he] at h

/-- A task is linked by the push that is owed for it, or by the wake of a
handle, which goes by its back-pointer. -/
theorem Next.linked {s s' : Shared N T V} {f : Frame N T V} {ev : Event T V}
    {gs : List (Frame N T V)} {t : T} {e : Fin N} (h : Next s f ev s' gs)
    (ht : t ∈ s'.queue e) :
    t ∈ s.queue e ∨ f.push = some (t, e) ∨
      ((∃ q u, f = .run q (.notify u)) ∧ s.ptr t = some e) := by
  cases h.queueEffect with
  | keep _ hq _ _ _ => exact Or.inl (hq ▸ ht)
  | flag _ _ _ _ _ _ _ _ hq _ _ _ => exact Or.inl (hq ▸ ht)
  | push u q _ _ _ hf _ hq _ _ _ =>
    rw [hq] at ht
    rcases mem_update_push ht with ht | ⟨rfl, rfl⟩
    · exact Or.inl ht
    · exact Or.inr (Or.inl hf)
  | wake u q q' v _ hf _ _ hptr hq _ _ _ =>
    rw [hq] at ht
    rcases mem_update_push ht with ht | ⟨rfl, rfl⟩
    · exact Or.inl ht
    · exact Or.inr (Or.inr ⟨⟨q', v, hf⟩, hptr⟩)
  | storeNull _ _ _ _ _ hq _ _ _ => exact Or.inl (hq ▸ ht)
  | dequeue u us q _ _ _ hqe hq _ _ _ =>
    rw [hq] at ht
    exact Or.inl (mem_update_pop hqe ht)
  | drained _ _ _ _ _ hq _ _ _ => exact Or.inl (hq ▸ ht)

/-- Only the executor of a queue takes a task out of it. -/
theorem Next.stays_linked {s s' : Shared N T V} {f : Frame N T V} {ev : Event T V}
    {gs : List (Frame N T V)} {t : T} {e : Fin N} (h : Next s f ev s' gs)
    (ht : t ∈ s.queue e) :
    t ∈ s'.queue e ∨ (ev = .tick ∧ f = .run e .top ∧ ∃ ts, s.queue e = t :: ts) := by
  have hpush : ∀ (q : Fin N) (u : T), t ∈ update s.queue q (s.queue q ++ [u]) e := fun q u => by
    by_cases he : e = q
    · subst he
      rw [update_self]
      exact List.mem_append_left _ ht
    · rw [update_of_ne he]
      exact ht
  cases h.queueEffect with
  | keep _ hq _ _ _ => exact Or.inl (hq ▸ ht)
  | flag _ _ _ _ _ _ _ _ hq _ _ _ => exact Or.inl (hq ▸ ht)
  | push u q _ _ _ _ _ hq _ _ _ => exact Or.inl (hq ▸ hpush q u)
  | wake u q _ _ _ _ _ _ _ hq _ _ _ => exact Or.inl (hq ▸ hpush q u)
  | storeNull _ _ _ _ _ hq _ _ _ => exact Or.inl (hq ▸ ht)
  | dequeue u us q hev hf _ hqe hq _ _ _ =>
    rw [hq]
    by_cases he : e = q
    · subst he
      rw [hqe] at ht
      rcases List.mem_cons.mp ht with rfl | ht
      · exact Or.inr ⟨hev, hf, us, hqe⟩
      · exact Or.inl (by rw [update_self]; exact ht)
    · exact Or.inl (by rw [update_of_ne he]; exact ht)
  | drained _ _ _ _ _ hq _ _ _ => exact Or.inl (hq ▸ ht)

/-- The back-pointer is written by a push and by the completion. -/
theorem Next.ptr {s s' : Shared N T V} {f : Frame N T V} {ev : Event T V}
    {gs : List (Frame N T V)} (h : Next s f ev s' gs) (t : T) :
    s'.ptr t = s.ptr t ∨ (∃ e, f.push = some (t, e) ∧ s'.ptr t = some e) ∨
      (ev = .tick ∧ s'.ptr t = none ∧ ∃ q, f = .run q (.storeNull t)) := by
  cases h.queueEffect with
  | keep _ _ _ hp _ => exact Or.inl (by rw [hp])
  | flag _ _ _ _ _ _ _ _ _ _ hp _ => exact Or.inl (by rw [hp])
  | push u q _ _ _ hf _ _ _ hp _ =>
    by_cases hu : t = u
    · subst hu
      exact Or.inr (Or.inl ⟨q, hf, by rw [hp, update_self]⟩)
    · exact Or.inl (by rw [hp, update_of_ne hu])
  | wake _ _ _ _ _ _ _ _ _ _ _ hp _ => exact Or.inl (by rw [hp])
  | storeNull u q hev hf _ _ _ hp _ =>
    by_cases hu : t = u
    · subst hu
      exact Or.inr (Or.inr ⟨hev, by rw [hp, update_self], q, hf⟩)
    · exact Or.inl (by rw [hp, update_of_ne hu])
  | dequeue _ _ _ _ _ _ _ _ _ hp _ => exact Or.inl (by rw [hp])
  | drained _ _ _ _ _ _ _ hp _ => exact Or.inl (by rw [hp])

/-- Only a push stores the back-pointer. -/
theorem Next.ptr_some {s s' : Shared N T V} {f : Frame N T V} {ev : Event T V}
    {gs : List (Frame N T V)} {t : T} {e : Fin N} (h : Next s f ev s' gs)
    (ht : s'.ptr t = some e) : s.ptr t = some e ∨ f.push = some (t, e) := by
  rcases h.ptr t with hp | ⟨e', hf, hp⟩ | ⟨-, hp, -⟩
  · exact Or.inl (hp.symm.trans ht)
  · rw [hp] at ht
    exact Or.inr (Option.some.inj ht ▸ hf)
  · rw [hp] at ht
    cases ht

/-- A push is owed from the `fetch_or` that found the flag clear. -/
theorem Next.push {s s' : Shared N T V} {f g : Frame N T V} {ev : Event T V}
    {gs : List (Frame N T V)} {t : T} {e : Fin N} (h : Next s f ev s' gs) (hg : g ∈ gs)
    (hp : g.push = some (t, e)) :
    f.push = some (t, e) ∨ (ev = .tick ∧ s.flag t = false ∧
      (f.calling = some (.wakeFlag t e) ∨ f.calling = some (.spawnFlag e t))) := by
  cases h.queueEffect with
  | keep hpush _ _ _ _ =>
    have hmem : (t, e) ∈ gs.filterMap Frame.push := List.mem_filterMap.mpr ⟨g, hg, hp⟩
    rw [hpush] at hmem
    obtain ⟨f', hf', hpf⟩ := List.mem_filterMap.mp hmem
    exact Or.inl (List.mem_singleton.mp hf' ▸ hpf)
  | flag u q f' hev hgs hcall hf' hclear _ _ _ _ =>
    rw [hgs] at hg
    rw [List.mem_singleton.mp hg, hf'] at hp
    obtain ⟨rfl, rfl⟩ := Prod.mk.inj (Option.some.inj hp)
    exact Or.inr ⟨hev, hclear, hcall⟩
  | push _ _ f' _ hgs _ hf' _ _ _ _ =>
    rw [hgs] at hg
    rw [List.mem_singleton.mp hg, hf'] at hp
    cases hp
  | wake _ _ _ _ _ _ hgs _ _ _ _ _ _ =>
    rw [hgs] at hg
    rw [List.mem_singleton.mp hg] at hp
    cases hp
  | storeNull _ _ _ _ hgs _ _ _ _ =>
    rw [hgs] at hg
    rw [List.mem_singleton.mp hg] at hp
    cases hp
  | dequeue _ _ _ _ _ hgs _ _ _ _ _ =>
    rw [hgs] at hg
    rw [List.mem_singleton.mp hg] at hp
    cases hp
  | drained _ _ _ hgs _ _ _ _ _ =>
    rw [hgs] at hg
    rw [List.mem_singleton.mp hg] at hp
    cases hp

/-- The `fetch_or` that finds the flag clear leaves a push owed. -/
theorem Next.owes {s s' : Shared N T V} {f : Frame N T V} {gs : List (Frame N T V)} {t : T}
    {e : Fin N} (h : Next s f .tick s' gs)
    (hcall : f.calling = some (.wakeFlag t e) ∨ f.calling = some (.spawnFlag e t))
    (hclear : s.flag t = false) : ∃ g, gs = [g] ∧ g.push = some (t, e) := by
  rcases hcall with hcall | hcall
  · obtain ⟨c', hc', hgs⟩ := h.calling hcall
    refine ⟨_, hgs, ?_⟩
    rw [Frame.push_setCall (Frame.user_of_calling hcall)]
    cases callStep_next hc' with
    | wakeSkip _ hq =>
      rw [show (s.tasks t).state.runQueued = false from hclear] at hq
      cases hq
    | wakeFlag => rfl
  · obtain ⟨c', hc', hgs⟩ := h.calling hcall
    refine ⟨_, hgs, ?_⟩
    rw [Frame.push_setCall (Frame.user_of_calling hcall)]
    cases callStep_next hc' with
    | spawnSkip _ hq =>
      rw [show (s.tasks t).state.runQueued = false from hclear] at hq
      cases hq
    | spawnFlag => rfl

/-! ### The balance -/

/-- The links of `t` in all queues. -/
def Shared.links (s : Shared N T V) (t : T) : ℕ := ∑ e, (s.queue e).count t

/-- The pushes of `t` that activations owe. -/
def owed (fs : List (Frame N T V)) (t : T) : ℕ :=
  (fs.filterMap Frame.push).countP fun p => p.1 = t

theorem owed_append (gs fs : List (Frame N T V)) (t : T) :
    owed (gs ++ fs) t = owed gs t + owed fs t := by
  rw [owed, List.filterMap_append, List.countP_append]
  rfl

theorem owed_cons (f : Frame N T V) (fs : List (Frame N T V)) (t : T) :
    owed (f :: fs) t = owed [f] t + owed fs t := owed_append [f] fs t

theorem owed_none {f : Frame N T V} (h : f.push = none) (t : T) : owed [f] t = 0 := by
  rw [owed, List.filterMap_cons_none h]
  rfl

theorem owed_some {f : Frame N T V} {u : T} {e : Fin N} (h : f.push = some (u, e)) (t : T) :
    owed [f] t = if u = t then 1 else 0 := by
  rw [owed, List.filterMap_cons_some h]
  simp [List.countP_cons]

theorem owed_pos {f : Frame N T V} {fs : List (Frame N T V)} {t : T} {e : Fin N} (hf : f ∈ fs)
    (h : f.push = some (t, e)) : 0 < owed fs t := by
  have hmem : (t, e) ∈ fs.filterMap Frame.push := List.mem_filterMap.mpr ⟨f, hf, h⟩
  exact List.countP_pos_iff.mpr ⟨(t, e), hmem, by simp⟩

theorem exists_push_of_owed {fs : List (Frame N T V)} {t : T} (h : 0 < owed fs t) :
    ∃ f ∈ fs, ∃ e, f.push = some (t, e) := by
  obtain ⟨⟨u, e⟩, hmem, hu⟩ := List.countP_pos_iff.mp h
  obtain ⟨f, hf, hp⟩ := List.mem_filterMap.mp hmem
  obtain rfl : u = t := of_decide_eq_true hu
  exact ⟨f, hf, e, hp⟩

omit [DecidableEq T] in
/-- Replacing one queue moves a sum over the queues by the difference. -/
theorem sum_update (q : Fin N → List T) (e : Fin N) (l : List T) (f : List T → ℕ) :
    (∑ x, f (update q e l x)) + f (q e) = (∑ x, f (q x)) + f l := by
  have hrest : ∑ x ∈ Finset.univ.erase e, f (update q e l x) =
      ∑ x ∈ Finset.univ.erase e, f (q x) :=
    Finset.sum_congr rfl fun x hx => by rw [update_of_ne (Finset.ne_of_mem_erase hx)]
  rw [← Finset.add_sum_erase _ (fun x => f (update q e l x)) (Finset.mem_univ e),
    ← Finset.add_sum_erase _ (fun x => f (q x)) (Finset.mem_univ e), hrest, update_self]
  omega

theorem Shared.links_push {s s' : Shared N T V} {e : Fin N} {t : T}
    (h : s'.queue = update s.queue e (s.queue e ++ [t])) (u : T) :
    s'.links u = s.links u + if t = u then 1 else 0 := by
  have hsum := sum_update s.queue e (s.queue e ++ [t]) (List.count u)
  rw [List.count_append] at hsum
  have hone : [t].count u = if t = u then 1 else 0 := by simp [List.count_cons]
  rw [links, links, h, ← hone]
  omega

theorem Shared.links_pop {s s' : Shared N T V} {e : Fin N} {t : T} {ts : List T}
    (hq : s.queue e = t :: ts) (h : s'.queue = update s.queue e ts) (u : T) :
    s'.links u + (if t = u then 1 else 0) = s.links u := by
  have hsum := sum_update s.queue e ts (List.count u)
  have hone : (t :: ts).count u = ts.count u + if t = u then 1 else 0 := by
    simp [List.count_cons]
  rw [hq, hone] at hsum
  rw [links, links, h]
  omega

theorem Shared.count_le_links (s : Shared N T V) (e : Fin N) (t : T) :
    (s.queue e).count t ≤ s.links t :=
  Finset.single_le_sum (f := fun x => (s.queue x).count t) (fun _ _ => Nat.zero_le _)
    (Finset.mem_univ e)

theorem Shared.links_pos_iff (s : Shared N T V) (t : T) :
    0 < s.links t ↔ ∃ e, t ∈ s.queue e := by
  rw [links, Finset.sum_pos_iff]
  simp [List.count_pos_iff]

namespace Kernel

/-- Links and pushes owed are together one for a flagged task, and none for
any other. -/
def Balanced (k : Kernel N T V) : Prop :=
  ∀ t, k.shared.links t + owed k.frames t = (k.shared.flag t).toNat

theorem Balanced.next {s s' : Shared N T V} {f : Frame N T V} {ev : Event T V}
    {fs gs : List (Frame N T V)} (hk : Balanced ⟨s, f :: fs⟩) (h : Next s f ev s' gs) :
    Balanced ⟨s', gs ++ fs⟩ := by
  intro u
  have hu : s.links u + owed (f :: fs) u = (s.flag u).toNat := hk u
  rw [owed_cons] at hu
  show s'.links u + owed (gs ++ fs) u = (s'.flag u).toNat
  rw [owed_append]
  -- a step that leaves the queues alone leaves the links alone
  have hlinks : s'.queue = s.queue → s'.links u = s.links u := fun hq => by
    rw [Shared.links, hq, Shared.links]
  cases h.queueEffect with
  | keep hp hq hflag _ _ =>
    have howed : owed gs u = owed [f] u := by rw [owed, hp, owed]
    rw [hlinks hq, howed, hflag, hu]
  | flag t e f' _ hgs hf hf' hclear hq hflag _ _ =>
    rw [hgs, hlinks hq, owed_some hf', hflag]
    rw [owed_none (Frame.push_of_flag hf)] at hu
    by_cases htu : t = u
    · subst htu
      rw [hclear, Bool.toNat_false] at hu
      rw [if_pos rfl, update_self, Bool.toNat_true]
      omega
    · rw [if_neg htu, update_of_ne (Ne.symm htu)]
      exact hu
  | push t e f' _ hgs hf hf' hq hflag _ _ =>
    rw [hgs, Shared.links_push hq, owed_none hf', hflag]
    rw [owed_some hf] at hu
    omega
  | wake t e q v _ hf hgs hclear _ hq hflag _ _ =>
    rw [hf, owed_none rfl] at hu
    rw [hgs, Shared.links_push hq, owed_none rfl, hflag]
    by_cases htu : t = u
    · subst htu
      rw [hclear, Bool.toNat_false] at hu
      rw [if_pos rfl, update_self, Bool.toNat_true]
      omega
    · rw [if_neg htu, update_of_ne (Ne.symm htu)]
      exact hu
  | storeNull t q _ hf hgs hq hflag _ _ =>
    rw [hf, owed_none rfl] at hu
    rw [hgs, owed_none rfl, hlinks hq, hflag, hu]
  | dequeue t ts e _ hf hgs hqe hq hflag _ _ =>
    have hpop := Shared.links_pop hqe hq u
    rw [hf, owed_none rfl] at hu
    rw [hgs, owed_none rfl, hflag]
    by_cases htu : t = u
    · subst htu
      -- `t` was linked, so it was flagged and nobody owes a push of it
      have hle := Bool.toNat_le (s.flag t)
      rw [if_pos rfl] at hpop
      rw [update_self, Bool.toNat_false]
      omega
    · rw [if_neg htu] at hpop
      rw [update_of_ne (Ne.symm htu)]
      omega
  | drained e _ hf hgs _ hq hflag _ _ =>
    rw [hf, owed_none rfl] at hu
    rw [hgs, owed_none rfl, hlinks hq, hflag, hu]

theorem init_balanced : Balanced (init (N := N) (T := T) (V := V)) := fun t => by
  show (∑ e : Fin N, List.count t []) + 0 = 0
  simp

theorem balanced {k : Kernel N T V} (h : Reachable k) : Balanced k := by
  refine h.invariant (I := Balanced) ?_ init_balanced
  intro k ev k' hb hstep
  obtain ⟨f, fs, s', gs, hk, rfl, hnext⟩ := step_next hstep
  rw [hk] at hb
  exact hb.next hnext

/-! ### Linked once, and owed once -/

/-- `t` is in some run queue. -/
def Linked (k : Kernel N T V) (t : T) : Prop := ∃ e, t ∈ k.shared.queue e

theorem Balanced.linked_or_owed {k : Kernel N T V} (hk : Balanced k) (t : T) :
    k.shared.flag t = true ↔
      (k.Linked t ∧ owed k.frames t = 0) ∨ (¬ k.Linked t ∧ owed k.frames t = 1) := by
  have hb := hk t
  have hlinked : k.Linked t ↔ 0 < k.shared.links t := (k.shared.links_pos_iff t).symm
  rw [hlinked]
  cases hf : k.shared.flag t with
  | false =>
    rw [hf, Bool.toNat_false] at hb
    refine ⟨fun h => (by cases h), fun h => ?_⟩
    omega
  | true =>
    rw [hf, Bool.toNat_true] at hb
    refine ⟨fun _ => ?_, fun _ => rfl⟩
    omega

theorem Balanced.count_le {k : Kernel N T V} (hk : Balanced k) (t : T) (e : Fin N) :
    (k.shared.queue e).count t ≤ 1 :=
  calc (k.shared.queue e).count t ≤ k.shared.links t := k.shared.count_le_links e t
    _ ≤ (k.shared.flag t).toNat := by rw [← hk t]; exact Nat.le_add_right _ _
    _ ≤ 1 := Bool.toNat_le _

/-- A task is not in two queues. -/
theorem Balanced.queue_unique {k : Kernel N T V} (hk : Balanced k) {t : T} {e e' : Fin N}
    (h : t ∈ k.shared.queue e) (h' : t ∈ k.shared.queue e') : e = e' := by
  by_contra hne
  have hb := hk t
  have hle := Bool.toNat_le (k.shared.flag t)
  have hpair : ∑ x ∈ {e, e'}, (k.shared.queue x).count t ≤ k.shared.links t :=
    Finset.sum_le_sum_of_subset (Finset.subset_univ _)
  rw [Finset.sum_pair hne] at hpair
  have h1 := List.count_pos_iff.mpr h
  have h2 := List.count_pos_iff.mpr h'
  omega

theorem Balanced.not_linked {k : Kernel N T V} (hk : Balanced k) {t : T}
    (h : k.shared.flag t = false ∨ 0 < owed k.frames t) : ¬ k.Linked t := by
  intro hl
  have hb := hk t
  have hle := Bool.toNat_le (k.shared.flag t)
  have hpos := (k.shared.links_pos_iff t).mpr hl
  rcases h with h | h
  · rw [h, Bool.toNat_false] at hb
    omega
  · omega

/-! ### No wake is dropped -/

/-- The next access of the innermost activation enqueues `t` or finds it
flagged: it is the `fetch_or` of `run_enqueue`, outside or inside the critical
section of `TaskStorage::poll`. -/
def Attempts (k : Kernel N T V) (t : T) : Prop :=
  ∃ f fs, k.frames = f :: fs ∧
    ((∃ e, f.calling = some (.wakeFlag t e) ∨ f.calling = some (.spawnFlag e t)) ∨
      ∃ q u, f = .run q (.notify u) ∧ (k.shared.tasks u).join.waker = some t ∧
        (k.shared.ptr t).isSome)

/-- The next access of the innermost activation dequeues `t`. -/
def Dequeues (k : Kernel N T V) (t : T) : Prop :=
  ∃ e fs ts, k.frames = .run e .top :: fs ∧ k.shared.queue e = t :: ts

/-- Only a dequeue of `t` clears its flag. -/
theorem flag_step {k k' : Kernel N T V} {ev : Event T V} {t : T} (hflag : k.shared.flag t = true)
    (hstep : step k ev = some k') : k'.shared.flag t = true ∨ k.Dequeues t := by
  obtain ⟨f, fs, s', gs, hk, rfl, hnext⟩ := step_next hstep
  have hupdate : ∀ u, update k.shared.flag u true t = true := fun u => by
    by_cases hu : t = u
    · rw [hu, update_self]
    · rw [update_of_ne hu, hflag]
  show s'.flag t = true ∨ _
  cases hnext.queueEffect with
  | keep _ _ hf => exact Or.inl (by rw [hf, hflag])
  | flag u _ _ _ _ _ _ _ _ hf => exact Or.inl (by rw [hf, hupdate u])
  | push _ _ _ _ _ _ _ _ hf => exact Or.inl (by rw [hf, hflag])
  | wake u _ _ _ _ _ _ _ _ _ hf => exact Or.inl (by rw [hf, hupdate u])
  | storeNull _ _ _ _ _ _ hf => exact Or.inl (by rw [hf, hflag])
  | drained _ _ _ _ _ _ hf => exact Or.inl (by rw [hf, hflag])
  | dequeue u us e _ hfr hgs hqe hq hf =>
    by_cases hu : t = u
    · subst hu
      exact Or.inr ⟨e, fs, us, by rw [hk, hfr], hqe⟩
    · exact Or.inl (by rw [hf, update_of_ne hu, hflag])

/-- An enqueue attempt leaves the task flagged. -/
theorem flag_of_attempts {k k' : Kernel N T V} {t : T} (h : k.Attempts t)
    (hstep : step k .tick = some k') : k'.shared.flag t = true := by
  obtain ⟨f, fs, hfr, hf⟩ := h
  obtain ⟨s', gs, rfl, hnext⟩ := next_of_frames hfr hstep
  show s'.flag t = true
  rcases hf with ⟨e, hc | hc⟩ | ⟨q, u, rfl, hw, hp⟩
  · obtain ⟨c', hcall, -⟩ := hnext.calling hc
    obtain ⟨rfl, -⟩ := Prod.mk.inj (Option.some.inj hcall)
    exact Shared.flag_runEnqueue _ t
  · obtain ⟨c', hcall, -⟩ := hnext.calling hc
    obtain ⟨rfl, -⟩ := Prod.mk.inj (Option.some.inj hcall)
    exact Shared.flag_runEnqueue _ t
  · cases hnext with
    | call hu _ => cases hu
    | notify hn =>
      rcases Shared.notifyLocked_some hn with ⟨hnone, -⟩ | ⟨w, hw', hwake⟩
      · rw [hnone] at hw
        cases hw
      · obtain rfl : w = t := Option.some.inj (hw'.symm.trans hw)
        rcases Shared.wakeLocked_some hwake with ⟨hnull, -⟩ | ⟨e, -, ⟨-, rfl⟩ | ⟨-, bm, -, rfl⟩⟩
        · have hnull : (k.shared.despawned u).ptr w = none := hnull
          rw [Shared.despawned_ptr] at hnull
          rw [hnull] at hp
          cases hp
        · exact Shared.flag_runEnqueue _ w
        · show (Shared.pushed _ e w bm).flag w = true
          rw [Shared.pushed_flag, Shared.flag_runEnqueue]

/-- From a flagged task on, until its next dequeue, it is linked or owed a
push. -/
theorem linked_or_owed_until {k k' : Kernel N T V} {t : T} (hk : Reachable k)
    (hflag : k.shared.flag t = true)
    (hsteps : Steps step (fun k _ => ¬ k.Dequeues t) k k') :
    (k'.Linked t ∧ owed k'.frames t = 0) ∨ (¬ k'.Linked t ∧ owed k'.frames t = 1) := by
  have hinv : Reachable k' ∧ k'.shared.flag t = true := by
    refine hsteps.invariant (I := fun k => Reachable k ∧ k.shared.flag t = true) ?_ ⟨hk, hflag⟩
    intro k ev k' ⟨hr, hf⟩ hno hstep
    exact ⟨hr.tail trivial hstep, (flag_step hf hstep).resolve_right hno⟩
  exact ((balanced hinv.1).linked_or_owed t).mp hinv.2

/-- **The run queues are never corrupted.** In every reachable state a task is
linked in at most one queue and at most once; it is flagged exactly when it is
linked or exactly one activation owes its push; whoever is about to push a
task pushes an unlinked node; and after an enqueue attempt the task is linked
or owed a push by one activation until it is dequeued. -/
theorem runQueue_not_corrupted {k : Kernel N T V} (h : Reachable k) (t : T) :
    (∀ e, (k.shared.queue e).count t ≤ 1) ∧
    (∀ e e', t ∈ k.shared.queue e → t ∈ k.shared.queue e' → e = e') ∧
    (k.shared.flag t = true ↔
      (k.Linked t ∧ owed k.frames t = 0) ∨ (¬ k.Linked t ∧ owed k.frames t = 1)) ∧
    (∀ f ∈ k.frames, ∀ e, f.push = some (t, e) → ¬ k.Linked t) ∧
    (k.shared.flag t = false → ¬ k.Linked t) ∧
    (k.Attempts t → ∀ k' k'', step k .tick = some k' →
      Steps step (fun k _ => ¬ k.Dequeues t) k' k'' →
      (k''.Linked t ∧ owed k''.frames t = 0) ∨ (¬ k''.Linked t ∧ owed k''.frames t = 1)) := by
  have hb := balanced h
  refine ⟨hb.count_le t, fun e e' => hb.queue_unique, hb.linked_or_owed t, ?_, ?_, ?_⟩
  · exact fun f hf e hpush => hb.not_linked (Or.inr (owed_pos hf hpush))
  · exact fun hclear => hb.not_linked (Or.inl hclear)
  · intro hatt k' k'' hstep hsteps
    exact linked_or_owed_until (h.tail trivial hstep) (flag_of_attempts hatt hstep) hsteps

/-- `Spawner::spawn` stopped between its `fetch_or` and its push. -/
theorem runQueue_not_corrupted_owed : ∃ k : Kernel 1 Unit Unit,
    k.shared.flag () = true ∧ owed k.frames () = 1 ∧ ¬ k.Linked () := by
  obtain ⟨k, hk, hobs⟩ := reachable_of_exec
    (fun k : Kernel 1 Unit Unit => (k.shared.flag (), owed k.frames ()))
    (.call (.storageSpawn ()) :: List.replicate 5 .tick ++ [.call (.spawn ⟨0⟩ ()), .tick])
    (a := (true, 1)) (by decide +kernel)
  obtain ⟨hflag, howed⟩ := Prod.mk.inj hobs
  refine ⟨k, hflag, howed, ?_⟩
  rcases (runQueue_not_corrupted hk ()).2.2.1.mp hflag with ⟨-, h0⟩ | ⟨hno, -⟩
  · rw [howed] at h0
    cases h0
  · exact hno

end Kernel
end RtAsync

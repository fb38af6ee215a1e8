/-
# All levels on the stack

What the spawn of a more urgent task does, followed step by step: the call,
the software interrupt that it raises, and `MachineSoft` up to the first poll
of the task. From each level the next one is reached so, and at the end all
executors are on the stack, with a handler on top: the budget of the stack is
used up, as `taken` counts it, each frame with the most that its alignment may
skip.

Key definitions: `Shared.spawned`, `Shared.entered`, `Shared.Below`,
`StackBudget.Uses`.
Key theorems: `Kernel.exec_spawnTask`, `Kernel.exec_machineSoft`,
`Kernel.exec_preempt`, `Kernel.levels`, `StackBudget.total_greatest`.
-/
import Mathlib.Data.List.FinRange
import RtAsync.Executor.SharedStack

namespace RtAsync

open Function (update update_self update_of_ne)
open Transition (exec)

variable {N : ℕ} {T V : Type}

/-! ### A spawn, and the preemption -/

theorem Frame.setCall_none {f : Frame N T V} (h : f.user = some none) : f.setCall none = f := by
  rcases user_cases h with rfl | rfl | rfl | ⟨e, t, rfl⟩ | ⟨e, t, rfl⟩ <;> rfl

theorem Frame.setCall_setCall {f : Frame N T V} (h : f.user = some none)
    (c c' : Option (Call N T)) : (f.setCall c).setCall c' = f.setCall c' := by
  rcases user_cases h with rfl | rfl | rfl | ⟨e, t, rfl⟩ | ⟨e, t, rfl⟩ <;> rfl

/-- A task that has been spawned for an executor and is in its queue. -/
def TaskInfo.started (p : Fin N) : TaskInfo N T V := ⟨⟨true, true⟩, some p, some .poll, .new, .live⟩

namespace Shared

variable {s : Shared N T V} {p : ℕ}

theorem shouldPend_eq (hp : s.Preempts p) : s.shouldPend = some true := by
  have hhigher : ∀ q ∈ s.prioStack.head?, (⟨p⟩ : Priority).isHigherThan q = true := fun q hq =>
    (Priority.isHigherThan_iff _ _).mpr (hp.2 q hq)
  unfold shouldPend
  rw [hp.1, Option.map_some]
  cases hst : s.prioStack.head? with
  | none => rfl
  | some q => exact congrArg some (hhigher q hst)

theorem spawnLocked_eq (hp : s.Preempts p) : s.spawnLocked = some s.pend := by
  rw [spawnLocked, shouldPend_eq hp]
  rfl

theorem tryPreempt_eq (hp : s.Preempts p) (hroom : s.prioStack.length < N) :
    s.tryPreempt = some ({ s with prioStack := ⟨p⟩ :: s.prioStack }, some ⟨p⟩) := by
  have hlower : ∀ q ∈ s.prioStack.head?, q.isLowerThan ⟨p⟩ = true := fun q hq =>
    (Priority.isLowerThan_iff _ _).mpr (hp.2 q hq)
  unfold tryPreempt pushPrio
  cases hst : s.prioStack.head? with
  | none => simp [hp.1, hroom]
  | some q => simp [hp.1, hroom, hlower q hst]

variable [DecidableEq T]

/-- A task has been spawned, and the interrupt is pending. -/
def spawned (s : Shared N T V) (p : Fin N) (t : T) (bm : PriorityBitmap 64) : Shared N T V :=
  { s with
    tasks := update s.tasks t (.started p)
    queue := update s.queue p (s.queue p ++ [t])
    bitmap := bm
    pendMarker := true
    msip := true }

/-- `MachineSoft` has dequeued the first task of an executor. -/
def entered (s : Shared N T V) (p : Fin N) (t : T) (ts : List T) : Shared N T V :=
  { s with
    tasks := update s.tasks t { s.tasks t with state := (s.tasks t).state.runDequeue }
    queue := update s.queue p ts
    prioStack := ⟨p⟩ :: s.prioStack
    pendMarker := false
    msip := false
    mie := true }

end Shared

namespace Kernel

variable [DecidableEq T] {s : Shared N T V} {f : Frame N T V} {fs : List (Frame N T V)}

theorem step_callStart (hu : f.user = some none) (r : Request T) :
    step ⟨s, f :: fs⟩ (.call r) =
      (callStart s r).map fun x => ⟨x.1, f.setCall (some x.2) :: fs⟩ := by
  simp [step, frameStep, hu, Function.comp_def]

theorem step_callTick (hu : f.user = some none) (c : Call N T) :
    step ⟨s, f.setCall (some c) :: fs⟩ .tick =
      (callStep s c).map fun x => ⟨x.1, f.setCall x.2 :: fs⟩ := by
  have hcall : (f.setCall (some c)).user = some (some c) := Frame.setCall_user hu _
  simp [step, frameStep, tickStep, hcall, Frame.setCall_setCall hu, Function.comp_def]

/-- User code spawns a task that is more urgent than all that is active. -/
theorem exec_spawnTask (hu : f.user = some none) {t : T} (ht : s.tasks t = .new)
    (htok : s.tokens t = 0) {p : Fin N} {bm : PriorityBitmap 64} (hbm : s.bitmap.set p = some bm)
    (hp : Shared.Preempts { s with bitmap := bm } p) :
    exec step ⟨s, f :: fs⟩ (Event.spawnTask ⟨p⟩ t) = some ⟨s.spawned p t bm, f :: fs⟩ := by
  have htokens : update s.tokens t 0 = s.tokens := by
    rw [← htok]
    exact Function.update_eq_self t s.tokens
  have hpend : ∀ s' : Shared N T V, s'.bitmap = bm → s'.prioStack = s.prioStack →
      s'.spawnLocked = some s'.pend := fun s' hbm' hst' =>
    Shared.spawnLocked_eq ⟨hbm' ▸ hp.1, fun q hq => hp.2 q (hst' ▸ hq)⟩
  simp [Event.spawnTask, List.replicate, Transition.exec_cons, step_callStart hu, step_callTick hu,
    Frame.setCall_none hu, callStart, callStep, ht, htok, htokens, State.spawn, State.runEnqueue,
    Shared.setTask, Shared.runEnqueue, Shared.enqueueLocked, hbm, hpend, Shared.pend,
    TaskInfo.new, JoinState.new, State.new]
  rfl

/-- The software interrupt is taken, `MachineSoft` finds what to run, and its
executor polls the first task of the queue. -/
theorem exec_machineSoft (hmie : s.mie = true) (hmsip : s.msip = true)
    (hmark : s.pendMarker = true) {p : Fin N} (hp : s.Preempts p) (hroom : s.prioStack.length < N)
    {t : T} {ts : List T} (hq : s.queue p = t :: ts) (hfn : (s.tasks t).pollFn = some .poll) :
    exec step ⟨s, f :: fs⟩ (Event.machineSoft ++ [.tick]) =
      some ⟨s.entered p t ts, .run p (.poll t none) :: f :: fs⟩ := by
  have hpreempt : ∀ s' : Shared N T V, s'.bitmap = s.bitmap → s'.prioStack = s.prioStack →
      s'.tryPreempt = some ({ s' with prioStack := ⟨p⟩ :: s.prioStack }, some ⟨p⟩) :=
    fun s' hbm' hst' => by
      rw [Shared.tryPreempt_eq (p := p) ⟨hbm' ▸ hp.1, fun q hq => hp.2 q (hst' ▸ hq)⟩ (hst' ▸ hroom), hst']
  simp [exec, Event.machineSoft, List.replicate, step, frameStep, tickStep, runStep, Frame.user,
    hmie, hmsip, hmark, hpreempt, p.isLt, Shared.dequeueLocked, hq, Shared.setTask, hfn,
    Shared.entered]

end Kernel

/-! ### From level to level -/

/-- All levels from `m` on are active, and nothing has happened below. -/
structure Shared.Below (s : Shared N (Fin N) V) (m : ℕ) : Prop where
  mie : s.mie = true
  wf : s.bitmap.WF
  stack : ∀ q ∈ s.prioStack, m ≤ q.value
  length : s.prioStack.length + m = N
  mem : ∀ q, s.bitmap.Mem q → m ≤ q
  fresh : ∀ t : Fin N, t.val < m → s.tasks t = .new ∧ s.tokens t = 0 ∧ s.queue t = []

namespace Kernel

/-- Each level has one task. -/
def preemptBy (p : Fin N) : List (Event (Fin N) V) :=
  Event.spawnTask ⟨p⟩ p ++ (Event.machineSoft ++ [.tick])

theorem exec_preempt (hN : N ≤ 4096) {s : Shared N (Fin N) V} {p : Fin N}
    (hs : s.Below (p + 1)) {f : Frame N (Fin N) V} (fs : List (Frame N (Fin N) V))
    (hu : f.user = some none) :
    ∃ s', exec step ⟨s, f :: fs⟩ (preemptBy p) = some ⟨s', .run p (.poll p none) :: f :: fs⟩ ∧
      s'.Below p := by
  have hlt := p.isLt
  obtain ⟨hnew, htok, hq⟩ := hs.fresh p (Nat.lt_succ_self p)
  obtain ⟨bm, hbm⟩ := Option.isSome_iff_exists.mp
    (PriorityBitmap.set_isSome s.bitmap (by omega : p.val < 64 * 64))
  have hwf := PriorityBitmap.set_wf (by decide) hs.wf hbm
  have hmem := PriorityBitmap.mem_set hbm
  have hp : Shared.Preempts { s with bitmap := bm } p := by
    obtain ⟨q, hq, hle⟩ := PriorityBitmap.highest_of_mem hwf ((hmem p).mpr (Or.inl rfl))
    rcases (hmem q).mp (PriorityBitmap.highest_least hwf hq).1 with rfl | hold
    · exact ⟨hq, fun r hr => hs.stack r (List.mem_of_mem_head? hr)⟩
    · have := hs.mem q hold
      omega
  have hlen := hs.length
  let s₁ : Shared N (Fin N) V := s.spawned p p bm
  have hspawned : exec step ⟨s, f :: fs⟩ (Event.spawnTask ⟨p⟩ p) = some ⟨s₁, f :: fs⟩ :=
    exec_spawnTask hu hnew htok hbm hp
  have hq₁ : s₁.queue p = [p] := by
    show update s.queue p (s.queue p ++ [p]) p = [p]
    rw [update_self, hq, List.nil_append]
  have hfn₁ : (s₁.tasks p).pollFn = some .poll := by
    show (update s.tasks p (.started p) p).pollFn = some .poll
    rw [update_self]
    rfl
  have hroom : s₁.prioStack.length < N := by
    show s.prioStack.length < N
    omega
  have hmie₁ : s₁.mie = true := hs.mie
  have hp₁ : s₁.Preempts p := hp
  have hran : exec step ⟨s₁, f :: fs⟩ (Event.machineSoft ++ [.tick]) =
      some ⟨s₁.entered p p [], .run p (.poll p none) :: f :: fs⟩ :=
    exec_machineSoft hmie₁ rfl rfl hp₁ hroom hq₁ hfn₁
  refine ⟨s₁.entered p p [], ?_, ?_⟩
  · rw [preemptBy, Transition.exec_append, hspawned, Option.bind_some, hran]
  · refine ⟨rfl, hwf, fun q hq => ?_, ?_, fun q hq => ?_, fun t ht => ?_⟩
    · rcases List.mem_cons.mp hq with rfl | hq
      · exact Nat.le_refl _
      · exact Nat.le_of_succ_le (hs.stack q hq)
    · show s.prioStack.length + 1 + p = N
      omega
    · rcases (hmem q).mp hq with rfl | hold
      · exact Nat.le_refl _
      · exact Nat.le_of_succ_le (hs.mem q hold)
    · have hne : t ≠ p := Fin.ne_of_lt ht
      obtain ⟨hnew', htok', hq'⟩ := hs.fresh t (Nat.lt_succ_of_lt ht)
      refine ⟨?_, htok', ?_⟩
      · show update (update s.tasks p _) p _ t = .new
        rw [update_of_ne hne, update_of_ne hne, hnew']
      · show update (update s.queue p _) p _ t = []
        rw [update_of_ne hne, update_of_ne hne, hq']

theorem preemptBy_keepsMasked (p : Fin N) : ∀ ev ∈ preemptBy (V := V) p,
    ∀ k : Kernel N (Fin N) V, k.keepsMasked ev = true := by
  simp only [preemptBy, Event.spawnTask, Event.machineSoft, List.replicate, List.cons_append,
    List.nil_append, List.forall_mem_cons]
  exact ⟨fun _ => rfl, fun _ => rfl, fun _ => rfl, fun _ => rfl, fun _ => rfl, fun _ => rfl,
    fun _ => rfl, fun _ => rfl, fun _ => rfl, fun _ => rfl, fun _ => rfl, fun _ => rfl,
    fun _ => rfl, fun _ => rfl, fun _ => rfl, fun _ => rfl, fun _ => rfl, fun _ => rfl,
    fun _ => rfl, List.forall_mem_nil _⟩

/-- The activations where the levels from `m` on are active. -/
def onTop (N : ℕ) (V : Type) (m : ℕ) : List (Frame N (Fin N) V) :=
  ((List.finRange N).drop m).map (fun p => .run p (.poll p none)) ++ [.base none]

theorem onTop_self : onTop N V N = [.base none] := by
  rw [onTop, List.drop_eq_nil_of_le (List.length_finRange.le)]
  rfl

theorem onTop_eq_cons (p : Fin N) :
    onTop N V p = .run p (.poll p none) :: onTop N V (p + 1) := by
  have hlt : p.val < (List.finRange N).length := by
    rw [List.length_finRange]
    exact p.isLt
  rw [onTop, List.drop_eq_getElem_cons hlt, List.getElem_finRange]
  rfl

/-- Its innermost activation is one of user code. -/
theorem onTop_user {m : ℕ} (hm : m ≤ N) :
    ∃ f fs, onTop N V m = f :: fs ∧ f.user = some none := by
  rcases Nat.lt_or_eq_of_le hm with hlt | rfl
  · exact ⟨_, _, onTop_eq_cons ⟨m, hlt⟩, rfl⟩
  · exact ⟨_, _, onTop_self, rfl⟩

theorem init_below : ({ (init : Kernel N (Fin N) V).shared with mie := true }).Below N where
  mie := rfl
  wf := PriorityBitmap.new_wf
  stack := fun q hq => by cases hq
  length := Nat.zero_add N
  mem := fun q hq => absurd hq (PriorityBitmap.not_mem_new q)
  fresh := fun _ _ => ⟨rfl, rfl, rfl⟩

/-- All executors from any level on can be active at once, one on top of the
other. -/
theorem levels (hN : N ≤ 4096) (n : ℕ) (hn : n ≤ N) :
    ∃ (es : List (Event (Fin N) V)) (s : Shared N (Fin N) V),
      exec step init es = some ⟨s, onTop N V (N - n)⟩ ∧ s.Below (N - n) ∧
        Transition.Along step (fun (k : Kernel N (Fin N) V) ev => k.keepsMasked ev = true) init es := by
  induction n with
  | zero =>
    refine ⟨[.setMie true], { (init : Kernel N (Fin N) V).shared with mie := true }, ?_,
      init_below, fun _ _ => ⟨rfl, trivial⟩⟩
    rw [Nat.sub_zero, onTop_self]
    rfl
  | succ n ih =>
    obtain ⟨es, s, he, hs, hkeep⟩ := ih (Nat.le_of_succ_le hn)
    let p : Fin N := ⟨N - (n + 1), by omega⟩
    have hp : N - n = p + 1 := by
      show N - n = N - (n + 1) + 1
      omega
    rw [hp] at he hs
    obtain ⟨f, fs, hfr, hu⟩ := onTop_user (V := V) p.isLt
    rw [show p.val + 1 = p.val.succ from rfl, hfr] at he
    obtain ⟨s', he', hs'⟩ := exec_preempt hN hs fs hu
    refine ⟨es ++ preemptBy p, s', ?_, hs',
      hkeep.append he (Transition.along_of_forall (preemptBy_keepsMasked p) _)⟩
    rw [Transition.exec_append, he, Option.bind_some, he', onTop_eq_cons p, hfr]

end Kernel

/-! ### The budget is used up -/

namespace StackBudget

variable (b : StackBudget)

/-- What the activations of some run take, if no handler enables interrupts and
each uses what it may at most. -/
def Uses (N : ℕ) (V : Type) (n : ℕ) : Prop :=
  ∃ (es : List (Event (Fin N) V)) (k : Kernel N (Fin N) V) (l : List (Frame N (Fin N) V × ℕ)),
    Transition.Along Kernel.step (fun (k : Kernel N (Fin N) V) ev => k.keepsMasked ev = true) .init es ∧
      exec Kernel.step .init es = some k ∧ l.map Prod.fst = k.frames ∧ (∀ x ∈ l, x.2 ≤ b.allows x.1) ∧
        (l.map taken).sum = n

/-- The levels and `main`, each with all that it may use. -/
theorem sum_onTop :
    ((Kernel.onTop N V 0).map fun f => taken (f, b.allows f)).sum =
      b.main + ∑ p ∈ Finset.range N, (b.level p + trapBytes) := by
  have hlevels : ((List.finRange N).map fun p : Fin N => b.level p + trapBytes).sum =
      ∑ p ∈ Finset.range N, (b.level p + trapBytes) := by
    rw [Finset.sum_range, Fin.sum_univ_def]
  rw [Kernel.onTop, List.drop_zero, List.map_append, List.map_map, List.sum_append, Nat.add_comm,
    ← hlevels]
  rfl

/-- With a handler on top of all levels the budget is used up. -/
theorem uses_total (hN : N ≤ 4096) : b.Uses N V (b.total N) := by
  obtain ⟨es, s, he, hs, hkeep⟩ := Kernel.levels (V := V) hN N (Nat.le_refl N)
  rw [Nat.sub_self] at he
  obtain ⟨f, fs, hfr, -⟩ := Kernel.onTop_user (V := V) (Nat.zero_le N)
  let k : Kernel N (Fin N) V := ⟨{ s with mie := false }, .isr none :: Kernel.onTop N V 0⟩
  have hisr : exec Kernel.step ⟨s, Kernel.onTop N V 0⟩ [Event.trapIsr] = some k := by
    rw [hfr]
    simp [exec, Kernel.step, frameStep, hs.mie, k, hfr]
  refine ⟨es ++ [.trapIsr], k, k.frames.map fun f => (f, b.allows f),
    hkeep.append he fun _ _ => ⟨rfl, trivial⟩, ?_, ?_, ?_, ?_⟩
  · rw [Transition.exec_append, he, Option.bind_some, hisr]
  · rw [List.map_map]
    exact List.map_id _
  · intro x hx
    obtain ⟨f, -, rfl⟩ := List.mem_map.mp hx
    exact Nat.le_refl _
  · rw [List.map_map, List.map_cons, List.sum_cons, total, ← sum_onTop (V := V), Nat.add_comm]
    rfl

theorem Uses.le {n : ℕ} (h : b.Uses N V n) : n ≤ b.total N := by
  obtain ⟨es, k, l, hkeep, he, hl, hle, rfl⟩ := h
  have hreach := Transition.reach_of_exec es he
  exact b.used_le (Kernel.nested hreach).2 (Kernel.grounded hreach) (Kernel.shallow hkeep he) hl hle

/-- **The budget is exact.** No run takes more of the stack, and one takes all
of it. What is taken is the sum of `taken`: in that run `sp` itself is as far
down only if each frame skips all that its alignment may. -/
theorem total_greatest (hN : N ≤ 4096) : IsGreatest {n | b.Uses N V n} (b.total N) :=
  ⟨b.uses_total hN, fun _ => Uses.le b⟩

/-- Four executors that use 1 KiB each. -/
theorem total_greatest_four :
    IsGreatest {n | (⟨4096, fun _ => 1024, 512⟩ : StackBudget).Uses 4 Unit n} 10139 :=
  total_greatest _ (by decide)

end StackBudget
end RtAsync

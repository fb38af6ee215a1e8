/-
# The hart is a preemptive priority scheduler

Seen from the queues, the hart releases a task where it is pushed, enters an
executor where `try_preempt` hands out its token, takes a task where `run`
dequeues one, and leaves an executor where `run` finds its queue empty. With
the queues as what is ready, and the executors that activations have entered
as the active levels, every run of the hart is a run of a preemptive priority
scheduler. So, however interrupts come, from the moment an executor is entered
until its queue is empty, the tasks that are dequeued are its own, in order,
or of a higher priority and pushed in the meantime.

Key definitions: `Kernel.sched`, `Kernel.act`.
Key theorems: `Next.sched`, `Kernel.refines`, `Kernel.runs_by_priority`.
-/
import RtAsync.Executor.Fifo
import RtAsync.Executor.Work
import RtAsync.Lib.PriorityScheduler

namespace RtAsync

open Function (update update_self)
open Preemptive (Sched Decision Step released fetched)
open Transition (Run Refines exec trace)

variable {N : ℕ} {T V : Type}

/-! ### The abstraction -/

/-- The queues, and the executors that have been entered. -/
def Kernel.sched (k : Kernel N T V) : Sched (Fin N) T := ⟨k.shared.queue, k.entered⟩

/-- What the scheduler sees of an event. -/
def Shared.act (s : Shared N T V) (f : Frame N T V) : Event T V → Option (Decision (Fin N) T)
  | .tick => match f with
    | .tryPreempt => (s.tryPreempt.bind Prod.snd).bind fun rt =>
        if h : rt.value < N then some (.enter ⟨rt.value, h⟩) else none
    | .run e .top => some (match s.queue e with
      | t :: _ => .fetch e t
      | [] => .leave e)
    | f => (s.pushing f).map fun (t, e) => .release e t
  | _ => none

def Kernel.act (k : Kernel N T V) (ev : Event T V) : Option (Decision (Fin N) T) :=
  k.frames.head?.bind fun f => k.shared.act f ev

section Token

variable {s : Shared N T V}

theorem Shared.Preempts.token {p : ℕ} (hp : s.Preempts p) (hlen : s.prioStack.length < N) :
    s.tryPreempt.bind Prod.snd = some ⟨p⟩ := by
  unfold Shared.tryPreempt Shared.pushPrio
  rw [hp.1, Option.map_some, Option.bind_some]
  cases hst : s.prioStack.head? with
  | none => simp [hlen]
  | some q =>
    have hlow : q.isLowerThan ⟨p⟩ = true := (Priority.isLowerThan_iff _ _).mpr (hp.2 q hst)
    simp [hlen, hlow]

theorem Shared.no_token (hno : ¬∃ p, s.Preempts p) : s.tryPreempt.bind Prod.snd = none := by
  cases htry : s.tryPreempt with
  | none => rfl
  | some r =>
    obtain ⟨s', o⟩ := r
    rcases Shared.tryPreempt_some htry with ⟨p, hp, -⟩ | ⟨rfl, -, -⟩
    · exact absurd ⟨p, hp⟩ hno
    · rfl

end Token

/-! ### One step -/

section Step

variable [DecidableEq T] {s s' : Shared N T V} {f : Frame N T V} {ev : Event T V}
  {fs gs : List (Frame N T V)}

omit [DecidableEq T] in
theorem Kernel.sched_cons (s : Shared N T V) (f : Frame N T V) (fs : List (Frame N T V)) :
    Kernel.sched ⟨s, f :: fs⟩ =
      ⟨s.queue, f.entered.toList ++ fs.filterMap Frame.entered⟩ := by
  unfold Kernel.sched Kernel.entered
  cases he : f.entered with
  | none => simp [he]
  | some e => simp [he]

omit [DecidableEq T] in
theorem Kernel.sched_congr (hq : s'.queue = s.queue)
    (he : gs.filterMap Frame.entered = f.entered.toList) :
    Kernel.sched ⟨s', gs ++ fs⟩ = Kernel.sched ⟨s, f :: fs⟩ := by
  rw [sched_cons, ← he, ← hq]
  simp [sched, entered]

omit [DecidableEq T] in
theorem Kernel.sched_push {e : Fin N} {t : T} (hq : s'.queue = update s.queue e (s.queue e ++ [t]))
    (he : gs.filterMap Frame.entered = f.entered.toList) :
    Step (Kernel.sched ⟨s, f :: fs⟩) (.release e t) (Kernel.sched ⟨s', gs ++ fs⟩) := by
  have hsched : Kernel.sched ⟨s', gs ++ fs⟩ = { Kernel.sched ⟨s, f :: fs⟩ with
      ready := update s.queue e (s.queue e ++ [t]) } := by
    rw [sched_cons, ← he, ← hq]
    simp [sched, entered]
  rw [hsched]
  exact .release (Kernel.sched ⟨s, f :: fs⟩) e t

/-- What a step does, seen from the queues. -/
def Kernel.Seen (s : Shared N T V) (f : Frame N T V) (ev : Event T V) (s' : Shared N T V)
    (gs fs : List (Frame N T V)) : Prop :=
  (s.act f ev = none ∧ Kernel.sched ⟨s', gs ++ fs⟩ = Kernel.sched ⟨s, f :: fs⟩) ∨
    ∃ x, s.act f ev = some x ∧ Step (Kernel.sched ⟨s, f :: fs⟩) x (Kernel.sched ⟨s', gs ++ fs⟩)

theorem Kernel.Seen.call {c : Call N T} {c' : Option (Call N T)} (hu : f.user = some (some c))
    (hc : callStep s c = some (s', c')) : Kernel.Seen s f .tick s' [f.setCall c'] fs := by
  have hent : [f.setCall c'].filterMap Frame.entered = f.entered.toList := by
    rw [List.filterMap_cons, Frame.setCall_entered]
    cases f.entered <;> rfl
  have hact : s.act f .tick = (s.pushing f).map fun (t, e) => .release e t := by
    rcases Frame.user_cases hu with rfl | rfl | rfl | ⟨e, t, rfl⟩ | ⟨e, t, rfl⟩ <;> rfl
  cases (Next.call hu hc).turnEffect with
  | keep hpush _ hq _ => exact Or.inl ⟨by rw [hact, hpush rfl]; rfl, Kernel.sched_congr hq hent⟩
  | push t e _ hpush _ hq _ _ =>
    exact Or.inr ⟨.release e t, by rw [hact, hpush]; rfl, Kernel.sched_push hq hent⟩
  | dequeue e t ts _ hf => rw [hf] at hu; cases hu
  | got e t _ hf => rw [hf] at hu; cases hu

/-- The despawn, which may push the waiter of the join handle. -/
theorem Kernel.Seen.notify {e : Fin N} {t : T} (hn : s.notifyLocked t = some s') :
    Kernel.Seen s (.run e (.notify t)) .tick s' [.run e .top] fs := by
  have hact : s.act (.run e (.notify t)) .tick =
      (s.pushing (.run e (.notify t))).map fun (t, e) => .release e t := rfl
  rcases notifyLocked_queue e hn with ⟨hpush, hq⟩ | ⟨w, e', hpush, -, hq⟩
  · exact Or.inl ⟨by rw [hact, hpush]; rfl, Kernel.sched_congr hq rfl⟩
  · exact Or.inr ⟨.release e' w, by rw [hact, hpush]; rfl, Kernel.sched_push hq rfl⟩

theorem Kernel.Seen.preempt (hin : Kernel.InOrder ⟨s, .tryPreempt :: fs⟩) {p : ℕ}
    (hp : s.Preempts p) (hlen : s.prioStack.length < N) :
    Kernel.Seen s .tryPreempt .tick { s with prioStack := ⟨p⟩ :: s.prioStack }
      [.enable ⟨p⟩] fs := by
  have hlt : p < N := hin.bitmap.lt p (PriorityBitmap.highest_least hin.bitmap.wf hp.1).1
  have hact : s.act .tryPreempt (.tick : Event T V) = some (.enter ⟨p, hlt⟩) := by
    unfold Shared.act
    simp [hp.token hlen, hlt]
  have hsched : Kernel.sched ⟨{ s with prioStack := ⟨p⟩ :: s.prioStack }, .enable ⟨p⟩ :: fs⟩ =
      { Kernel.sched ⟨s, .tryPreempt :: fs⟩ with
        active := ⟨p, hlt⟩ :: (Kernel.sched ⟨s, .tryPreempt :: fs⟩).active } := by
    rw [Kernel.sched_cons, Kernel.sched_cons]
    simp [Frame.entered, hlt]
  refine Or.inr ⟨_, hact, ?_⟩
  rw [List.singleton_append, hsched]
  refine .enter (hin.coherent.preempts hin.nested hin.bitmap (e := ⟨p, hlt⟩) hp)
    (fun e he => ?_) (fun e he => ?_)
  · -- its bit is the first that is set
    exact (PriorityBitmap.highest_least hin.bitmap.wf hp.1).2 e (hin.coherent.set e he)
  · obtain ⟨g, hg, hge⟩ := List.mem_filterMap.mp he
    have hstack : (⟨e⟩ : Priority) ∈ s.prioStack := by
      rw [hin.nested.mirror]
      exact List.mem_filterMap.mpr ⟨g, hg, Frame.token_of_entered hge⟩
    exact hp.lt_stack hin.nested.sorted _ hstack

/-- **One step.** A step of the hart is a step of the scheduler, or is not
seen. -/
theorem Next.sched (hin : Kernel.InOrder ⟨s, f :: fs⟩) (h : Next s f ev s' gs) :
    Kernel.Seen s f ev s' gs fs := by
  have hkeep : s.act f ev = none → s'.queue = s.queue →
      gs.filterMap Frame.entered = f.entered.toList → Kernel.Seen s f ev s' gs fs :=
    fun ha hq he => Or.inl ⟨ha, Kernel.sched_congr hq he⟩
  have hself : [f].filterMap Frame.entered = f.entered.toList := by
    rw [List.filterMap_cons]
    cases f.entered <;> rfl
  cases h with
  | call hu hc => exact .call hu hc
  | notify hn => exact .notify hn
  | preempt hp hlen => exact .preempt hin hp hlen
  | noPreempt hfull =>
    have hno : ¬∃ p, s.Preempts p := fun ⟨p, hp⟩ =>
      Nat.not_lt.mpr (hfull ⟨p, hp⟩) (hin.nested.room hin.bitmap hp)
    exact hkeep (by simp [Shared.act, Shared.no_token hno]) rfl rfl
  | @dequeue e t ts hq =>
    refine Or.inr ⟨.fetch e t, by simp [Shared.act, hq], ?_⟩
    exact .fetch (s := Kernel.sched ⟨s, .run e .top :: fs⟩) rfl hq
  | @drained e bm hq hbm =>
    refine Or.inr ⟨.leave e, by simp [Shared.act, hq], ?_⟩
    exact .leave (s := Kernel.sched ⟨s, .run e .top :: fs⟩) rfl hq
  | begin hu hc =>
    obtain ⟨⟨tk, rfl⟩, -⟩ := callStart_shared hc
    refine hkeep rfl rfl ?_
    rw [List.filterMap_cons, Frame.setCall_entered, ← hself]
    rfl
  | clear sys => exact hkeep rfl rfl (by cases sys <;> rfl)
  | enable hlt => exact hkeep rfl rfl (by simp [Frame.entered, hlt])
  | setMie => exact hkeep rfl rfl hself
  | external => exact hkeep rfl rfl hself
  | trapSoft => exact hkeep rfl rfl hself
  | trapIsr => exact hkeep rfl rfl hself
  | _ => exact hkeep rfl rfl rfl

end Step

namespace Kernel

variable [DecidableEq T]

/-- **The hart is a preemptive priority scheduler.** From every reachable
state, each step of the hart is a step of the scheduler, or is not seen. -/
theorem refines : Refines step (Reachable (N := N) (T := T) (V := V)) sched act Step := by
  have hnext : ∀ (k : Kernel N T V) ev k', Reachable k → step k ev = some k' →
      (k.act ev = none ∧ k'.sched = k.sched) ∨ ∃ x, k.act ev = some x ∧ Step k.sched x k'.sched := by
    intro k ev k' hk hs
    have hin := InOrder.of_reachable hk
    obtain ⟨f, fs, s', gs, he, rfl, hn⟩ := step_next hs
    rw [he] at hin ⊢
    exact hn.sched hin
  refine ⟨fun k ev k' hk hs => hk.tail trivial hs, fun k ev k' x hk hs hx => ?_,
    fun k ev k' hk hs hx => ?_⟩
  · rcases hnext k ev k' hk hs with ⟨hnone, -⟩ | ⟨y, hy, hstep⟩
    · rw [hnone] at hx
      cases hx
    · rw [hy] at hx
      rwa [← Option.some.inj hx]
  · rcases hnext k ev k' hk hs with ⟨-, hsame⟩ | ⟨y, hy, -⟩
    · exact hsame
    · rw [hy] at hx
      cases hx

/-- **Every run is a run of the scheduler**, from where nothing is ready and no
executor is active. Each executor dequeues what is pushed to it, in order, and
the rest is in its queue. -/
theorem schedules {es : List (Event T V)} {k : Kernel N T V} (he : exec step init es = some k) :
    Run Step ⟨fun _ => [], []⟩ (trace step act init es) k.sched ∧
      ∀ e, released e (trace step act init es) =
        fetched e (trace step act init es) ++ k.shared.queue e := by
  have hrun : Run Step ⟨fun _ => [], []⟩ (trace step act init es) k.sched :=
    refines.run (Transition.Steps.refl init) he
  exact ⟨hrun, fun e => Preemptive.run_fifo hrun e⟩

theorem schedules_spawned : ∃ k : Kernel 1 Unit Unit,
    Run Step ⟨fun _ => [], []⟩ [.release 0 (), .enter 0, .fetch 0 ()] k.sched := by
  have htrace : trace step act (init : Kernel 1 Unit Unit)
      (Event.spawnTask ⟨0⟩ () ++ .setMie true :: Event.machineSoft) =
      [.release 0 (), .enter 0, .fetch 0 ()] := by decide +kernel
  obtain ⟨k, hk, -⟩ := Option.map_eq_some_iff.mp (show (exec step (init : Kernel 1 Unit Unit)
    (Event.spawnTask ⟨0⟩ () ++ .setMie true :: Event.machineSoft)).map Kernel.frames =
      some [.run 0 (.got ()), .base none] by decide +kernel)
  exact ⟨k, htrace ▸ (schedules hk).1⟩

theorem sched_sorted {k : Kernel N T V} (h : Reachable k) : k.sched.Sorted :=
  refines.invariant (fun _ _ _ hs hstep => Sched.Sorted.step hs hstep) h
    (Transition.Steps.refl init) List.Pairwise.nil

/-- **Executors run by priority, and first come, first served.** Over any run
from a reachable state, what an executor dequeues and what is left in its queue
is what was there and what is pushed, in order. From the moment `try_preempt`
hands out the token of an executor until its queue is found empty, every task
that is dequeued is one of its own, in the order of the pushes, or has a higher
priority and was pushed in the meantime. -/
theorem runs_by_priority {k k' : Kernel N T V} {es : List (Event T V)} (h : Reachable k)
    (he : exec step k es = some k') :
    (∀ e, k.shared.queue e ++ released e (trace step act k es) =
      fetched e (trace step act k es) ++ k'.shared.queue e) ∧
    ∀ k₀ ev e, Reachable k₀ → step k₀ ev = some k → k₀.act ev = some (.enter e) →
      .leave e ∉ trace step act k es →
      (∀ b t, .fetch b t ∈ trace step act k es →
        b = e ∨ b < e ∧ .release b t ∈ trace step act k es) ∧
      fetched e (trace step act k es) <+: k.shared.queue e ++ released e (trace step act k es) := by
  have hrun : Run Step k.sched (trace step act k es) k'.sched := refines.run h he
  refine ⟨Preemptive.run_fifo hrun, fun k₀ ev e h₀ hs henter hno => ?_⟩
  exact Preemptive.guarantee (sched_sorted h₀) (refines.seen k₀ ev k (.enter e) h₀ hs henter) hrun
    hno

/-- The future of a task of executor 1 spawns a task for executor 0, which
preempts it. -/
theorem runs_by_priority_preempted : ∃ (k₀ k : Kernel 2 Bool Unit) (es : List (Event Bool Unit)),
    k₀.act .tick = some (.enter 1) ∧ step k₀ .tick = some k ∧
      trace step act k es = [.fetch 1 false, .release 0 true, .enter 0, .fetch 0 true] ∧
      fetched 1 (trace step act k es) <+: k.shared.queue 1 ++ released 1 (trace step act k es) := by
  let es : List (Event Bool Unit) :=
    List.replicate 4 .tick ++ Event.spawnTask ⟨0⟩ true ++ Event.machineSoft
  obtain ⟨k₀, hk₀, hobs⟩ := Option.map_eq_some_iff.mp (show
    (exec step (init : Kernel 2 Bool Unit)
      (Event.spawnTask ⟨1⟩ false ++ [.setMie true, .trapSoft, .ret, .tick, .tick])).map
        (fun k => (k.act .tick, (k.step .tick).map fun k' =>
          (trace step act k' es, (exec step k' es).isSome))) =
      some (some (.enter 1),
        some ([.fetch 1 false, .release 0 true, .enter 0, .fetch 0 true], true)) by decide +kernel)
  obtain ⟨henter, hobs⟩ := Prod.mk.inj hobs
  obtain ⟨k, hk, hobs⟩ := Option.map_eq_some_iff.mp hobs
  obtain ⟨htrace, hend⟩ := Prod.mk.inj hobs
  obtain ⟨k', hk'⟩ := Option.isSome_iff_exists.mp hend
  have h₀ : Reachable k₀ := Transition.reach_of_exec _ hk₀
  have hpriority := (runs_by_priority (h₀.tail trivial hk) hk').2 k₀ .tick 1 h₀ hk henter
    (by rw [htrace]; decide)
  exact ⟨k₀, k, es, henter, hk, htrace, hpriority.2⟩

end Kernel
end RtAsync

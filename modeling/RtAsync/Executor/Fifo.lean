/-
# The order of the polls of one priority

Beside the hart, for each executor: every push onto its queue, with the tasks
that stood in the queue then, and every task whose poll its `run` has
begun. Pushes come from everywhere, the critical section of `TaskStorage::poll`
included; a task that `run` has dequeued and not polled yet is between the
queue and the polls.

Key definitions: `Shared.pushing`, `Frame.fetched`, `Shared.polls`, `Turns`,
`Turns.InTurn`, `Turns.EndsDrained`.
Key theorems: `Next.turnEffect`, `Turns.Inv.next`, `Turns.polled_in_turn`.
-/
import RtAsync.Executor.Coherence
import RtAsync.Lib.FifoLog

namespace RtAsync

open Function (update update_self update_of_ne)
open Transition (Along Always along_of_along along_true always_of_along)

variable {N : ℕ} {T V : Type}

/-! ### Pushes and dequeues -/

/-- The push that the next access of an activation makes: the one it owes, or
the one of the wake of a handle. -/
def Shared.pushing (s : Shared N T V) : Frame N T V → Option (T × Fin N)
  | .run _ (.notify u) => (s.tasks u).join.waker.bind fun w => (s.ptr w).bind fun e =>
      if s.flag w then none else some (w, e)
  | f => f.push

/-- The task that `run` of `e` has dequeued, before `poll_fn` is read. -/
def Frame.fetched (e : Fin N) : Frame N T V → Option T
  | .run q (.got t) => if q = e then some t else none
  | _ => none

/-- The executor that is inside a future, and the task. -/
def Frame.polled : Frame N T V → Option (Fin N × T)
  | .run e (.poll t _) => some (e, t)
  | _ => none

theorem Frame.fetched_user {f : Frame N T V} {c : Option (Call N T)} (h : f.user = some c)
    (e : Fin N) : f.fetched e = none := by
  rcases Frame.user_cases h with rfl | rfl | rfl | ⟨q, t, rfl⟩ | ⟨q, t, rfl⟩ <;> rfl

theorem Frame.running_of_fetched {f : Frame N T V} {e : Fin N} {t : T}
    (h : f.fetched e = some t) : f.running = some e := by
  unfold fetched at h
  split at h
  · obtain ⟨rfl, -⟩ := Option.ite_none_right_eq_some.mp h
    rfl
  · cases h

theorem Shared.pushing_user (s : Shared N T V) {f : Frame N T V} {c : Option (Call N T)}
    (h : f.user = some c) : s.pushing f = f.push := by
  rcases Frame.user_cases h with rfl | rfl | rfl | ⟨q, t, rfl⟩ | ⟨q, t, rfl⟩ <;> rfl

variable [DecidableEq T]

theorem notifyLocked_queue {s s' : Shared N T V} (q : Fin N) {u : T} (h : s.notifyLocked u = some s') :
    (s.pushing (.run q (.notify u)) = none ∧ s'.queue = s.queue) ∨
    ∃ w e, s.pushing (.run q (.notify u)) = some (w, e) ∧ s.flag w = false ∧
      s'.queue = update s.queue e (s.queue e ++ [w]) := by
  have hf : (s.despawned u).flag = s.flag := s.despawned_flag u
  have hp : (s.despawned u).ptr = s.ptr := s.despawned_ptr u
  rcases Shared.notifyLocked_some h with ⟨hw, rfl⟩ | ⟨w, hw, hwake⟩
  · exact Or.inl ⟨by simp only [Shared.pushing, hw, Option.bind_none], rfl⟩
  · have hpush : s.pushing (.run q (.notify u)) = (s.ptr w).bind fun e =>
        if s.flag w then none else some (w, e) := by
      simp only [Shared.pushing, hw, Option.bind_some]
    rw [hpush]
    rcases Shared.wakeLocked_some hwake with ⟨hnull, rfl⟩ | ⟨e, he, ⟨hset, rfl⟩ | ⟨hclear, bm, -, rfl⟩⟩
    · have hnull : s.ptr w = none := (congrFun hp w).symm.trans hnull
      rw [hnull]
      exact Or.inl ⟨rfl, rfl⟩
    · have he : s.ptr w = some e := (congrFun hp w).symm.trans he
      have hset : s.flag w = true := (congrFun hf w).symm.trans hset
      rw [he, hset]
      exact Or.inl ⟨rfl, rfl⟩
    · have he : s.ptr w = some e := (congrFun hp w).symm.trans he
      have hclear : s.flag w = false := (congrFun hf w).symm.trans hclear
      rw [he, hclear]
      exact Or.inr ⟨w, e, rfl, hclear, rfl⟩

/-- The poll that a step from `f` begins, where `fs` is the stack after it: `run`
is inside the future of the task that it has dequeued, or has called
`poll_exited`, which returns at once. -/
def Shared.polls (s : Shared N T V) (f : Frame N T V) (fs : List (Frame N T V)) :
    Option (Fin N × T) :=
  match f with
  | .run e (.got t) =>
    if fs.head?.bind Frame.polled = some (e, t) ∨ (s.tasks t).pollFn = some .pollExited then
      some (e, t)
    else none
  | _ => none

/-- What a step can do to the queues and to what is dequeued. -/
inductive TurnEffect (s : Shared N T V) (f : Frame N T V) (ev : Event T V) (s' : Shared N T V)
    (gs : List (Frame N T V)) : Prop
  | keep : (ev = .tick → s.pushing f = none) → (∀ e t, ev = .tick → f ≠ .run e (.got t)) →
      s'.queue = s.queue → (∀ e, gs.filterMap (Frame.fetched e) = [f].filterMap (Frame.fetched e)) →
      TurnEffect s f ev s' gs
  | push (t : T) (e : Fin N) : ev = .tick → s.pushing f = some (t, e) →
      s.flag t = false ∨ f.push = some (t, e) → s'.queue = update s.queue e (s.queue e ++ [t]) →
      (∀ q, f.fetched q = none) → (∀ q, gs.filterMap (Frame.fetched q) = []) →
      TurnEffect s f ev s' gs
  | dequeue (e : Fin N) (t : T) (ts : List T) : ev = .tick → f = .run e .top →
      gs = [.run e (.got t)] → s.queue e = t :: ts → s'.queue = update s.queue e ts →
      TurnEffect s f ev s' gs
  | got (e : Fin N) (t : T) : ev = .tick → f = .run e (.got t) → s'.queue = s.queue →
      (∀ q, gs.filterMap (Frame.fetched q) = []) → (∀ fs, s.polls f (gs ++ fs) = some (e, t)) →
      TurnEffect s f ev s' gs

omit [DecidableEq T] in
theorem filterMap_fetched_user {f : Frame N T V} {c : Option (Call N T)} (h : f.user = some c)
    (e : Fin N) : [f].filterMap (Frame.fetched e) = [] :=
  List.filterMap_cons_none (Frame.fetched_user h e)

theorem Next.turnEffect {s s' : Shared N T V} {f : Frame N T V} {ev : Event T V}
    {gs : List (Frame N T V)} (h : Next s f ev s' gs) : TurnEffect s f ev s' gs := by
  cases h with
  | @call _ c _ c' hu hc =>
    have hno : ∀ e t, f ≠ .run e (.got t) := fun e t hf => by
      rw [hf] at hu
      cases hu
    have hgs : ∀ e, [f.setCall c'].filterMap (Frame.fetched e) = [] :=
      filterMap_fetched_user (Frame.setCall_user hu c')
    have hpush := Frame.push_call hu
    cases callStep_next hc with
    | @wakePush t e bm _ =>
      exact .push t e rfl (by rw [s.pushing_user hu, hpush]; rfl) (Or.inr hpush) rfl
        (Frame.fetched_user hu) hgs
    | @spawnPush t e bm _ =>
      exact .push t e rfl (by rw [s.pushing_user hu, hpush]; rfl) (Or.inr hpush) rfl
        (Frame.fetched_user hu) hgs
    | _ =>
      refine .keep (fun _ => by rw [s.pushing_user hu, hpush]; rfl) (fun e t _ => hno e t) rfl ?_
      exact fun e => by rw [hgs e, filterMap_fetched_user hu e]
  | begin hu hc =>
    obtain ⟨⟨tk, rfl⟩, -⟩ := callStart_shared hc
    refine .keep (fun hev => by cases hev) (fun _ _ hev => by cases hev) rfl fun e => ?_
    rw [filterMap_fetched_user (Frame.setCall_user hu _) e, filterMap_fetched_user hu e]
  | setMie => exact .keep (fun hev => by cases hev) (fun _ _ hev => by cases hev) rfl fun _ => rfl
  | trapSoft => exact .keep (fun hev => by cases hev) (fun _ _ hev => by cases hev) rfl fun _ => rfl
  | trapIsr => exact .keep (fun hev => by cases hev) (fun _ _ hev => by cases hev) rfl fun _ => rfl
  | external => exact .keep (fun hev => by cases hev) (fun _ _ hev => by cases hev) rfl fun _ => rfl
  | clear sys =>
    refine .keep (fun _ => rfl) (fun _ _ _ hf => by cases hf) rfl fun e => ?_
    cases sys <;> rfl
  | dequeue hqe => exact .dequeue _ _ _ rfl rfl rfl hqe rfl
  | gotPoll => exact .got _ _ rfl rfl rfl (fun _ => rfl) fun _ => if_pos (Or.inl rfl)
  | gotExited hfn => exact .got _ _ rfl rfl rfl (fun _ => rfl) fun _ => if_pos (Or.inr hfn)
  | @notify q u _ hn =>
    rcases notifyLocked_queue q hn with ⟨hp, hsame⟩ | ⟨w, e, hp, hclear, hpush⟩
    · exact .keep (fun _ => hp) (fun _ _ _ hf => by cases hf) hsame fun _ => rfl
    · exact .push w e rfl hp (Or.inl hclear) hpush (fun _ => rfl) fun _ => rfl
  | _ => exact .keep (fun _ => rfl) (fun _ _ _ hf => by cases hf) rfl fun _ => rfl

/-- `run` returns from one statement only. -/
theorem Next.of_running {s s' : Shared N T V} {f : Frame N T V} {ev : Event T V}
    {gs : List (Frame N T V)} {e : Fin N} (h : Next s f ev s' gs) (hf : f.running = some e) :
    (∃ g ∈ gs, g.running = some e) ∨
      (ev = .tick ∧ f = .run e .top ∧ gs = [.disable e] ∧ s.queue e = [] ∧ s'.queue = s.queue ∧
        s.bitmap.clear e = some s'.bitmap) := by
  cases h with
  | drained hq hbm =>
    obtain rfl := Option.some.inj hf
    exact Or.inr ⟨rfl, rfl, rfl, hq, rfl, hbm⟩
  | call hu _ =>
    refine Or.inl ⟨_, List.mem_cons_self, ?_⟩
    rcases Frame.user_cases hu with rfl | rfl | rfl | ⟨q, t, rfl⟩ | ⟨q, t, rfl⟩ <;> exact hf
  | begin hu _ =>
    refine Or.inl ⟨_, List.mem_cons_self, ?_⟩
    rcases Frame.user_cases hu with rfl | rfl | rfl | ⟨q, t, rfl⟩ | ⟨q, t, rfl⟩ <;> exact hf
  | setMie => exact Or.inl ⟨f, List.mem_cons_self, hf⟩
  | external => exact Or.inl ⟨f, List.mem_cons_self, hf⟩
  | trapSoft => exact Or.inl ⟨f, by simp, hf⟩
  | trapIsr => exact Or.inl ⟨f, by simp, hf⟩
  | isrRet => cases hf
  | mret => cases hf
  | hookRet => cases hf
  | swap => cases hf
  | clear => cases hf
  | preempt => cases hf
  | noPreempt => cases hf
  | enable => cases hf
  | disable => cases hf
  | complete => cases hf
  | _ => exact Or.inl ⟨_, List.mem_cons_self, hf⟩

/-! ### Turns -/

/-- A push is recorded where it is made, a poll where it begins. -/
def Shared.turnsTick (s : Shared N T V) (f : Frame N T V) (fs : List (Frame N T V))
    (log : Fin N → FifoLog T) : Fin N → FifoLog T :=
  match s.pushing f with
  | some (t, e) => update log e ((log e).push (s.queue e) t)
  | none => match s.polls f fs with
    | some (e, t) => update log e ((log e).take t)
    | none => log

def Kernel.turnsNext (k k' : Kernel N T V) (ev : Event T V) (log : Fin N → FifoLog T) :
    Fin N → FifoLog T :=
  match ev with
  | .tick => match k.frames with
    | f :: _ => k.shared.turnsTick f k'.frames log
    | [] => log
  | _ => log

/-- The hart, with the pushes and the polls of each executor. -/
structure Turns (N : ℕ) (T V : Type) where
  kernel : Kernel N T V
  log : Fin N → FifoLog T

namespace Turns

def init : Turns N T V := ⟨.init, fun _ => .empty⟩

def step (h : Turns N T V) (ev : Event T V) : Option (Turns N T V) :=
  (h.kernel.step ev).map fun k' => ⟨k', h.kernel.turnsNext k' ev h.log⟩

/-- The polls of an executor are its pushes, in order and as far as they go;
between two polls of a task, with none in between, everything is polled that
stood in the queue when the task was pushed for the second. -/
def InTurn (h : Turns N T V) : Prop :=
  ∀ e, (h.log e).taken <+: (h.log e).order ∧
    ∀ xs ys zs t, (h.log e).taken = xs ++ t :: (ys ++ t :: zs) → t ∉ ys →
      ∃ ahead, (h.log e).pushed[xs.length + 1 + ys.length]? = some (t, ahead) ∧ ahead <:+ ys

/-- A step after which the innermost activation is no longer inside `run` of
`e` is the critical section that finds the queue empty and clears the bit of
`e`; everything that was ever pushed onto the queue has been polled then. -/
def EndsDrained (h : Turns N T V) (ev : Event T V) : Prop :=
  ∀ h' e f fs gs, step h ev = some h' → h.kernel.frames = f :: fs → f.running = some e →
    h'.kernel.frames = gs ++ fs → (∀ g ∈ gs, g.running ≠ some e) →
    ev = .tick ∧ f = .run e .top ∧ gs = [.disable e] ∧ h.kernel.shared.queue e = [] ∧
      h'.kernel.shared.queue e = [] ∧ h.kernel.shared.bitmap.clear e = some h'.kernel.shared.bitmap ∧
      ¬ h'.kernel.shared.bitmap.Mem e ∧ (h.log e).taken = (h.log e).order

/-- The tasks that `run` of `e` has dequeued and not polled yet come between
the polls and the queue. -/
structure Inv (h : Turns N T V) : Prop where
  reachable : h.kernel.Reachable
  log : ∀ e, (⟨(h.log e).pushed, (h.log e).taken ++ h.kernel.frames.filterMap (Frame.fetched e)⟩ :
    FifoLog T).Of (h.kernel.shared.queue e)

theorem step_some {h h' : Turns N T V} {ev : Event T V} (hs : step h ev = some h') :
    ∃ f fs s' gs, h = ⟨⟨h.kernel.shared, f :: fs⟩, h.log⟩ ∧
      h' = ⟨⟨s', gs ++ fs⟩, h.kernel.turnsNext ⟨s', gs ++ fs⟩ ev h.log⟩ ∧
      Kernel.step h.kernel ev = some h'.kernel ∧ Next h.kernel.shared f ev s' gs := by
  obtain ⟨k', hk', rfl⟩ := Option.map_eq_some_iff.mp hs
  obtain ⟨f, fs, s', gs, hk, rfl, hnext⟩ := Kernel.step_next hk'
  exact ⟨f, fs, s', gs, by rw [← hk], rfl, hk', hnext⟩

omit [DecidableEq T] in
/-- Below an activation inside `run` of `e` there is no other. -/
theorem fetched_below {s : Shared N T V} {f : Frame N T V} {fs : List (Frame N T V)} {e : Fin N}
    (hn : Nested ⟨s, f :: fs⟩) (hf : f.running = some e) :
    fs.filterMap (Frame.fetched e) = [] := by
  have hsorted := hn.running_sorted
  rw [List.filterMap_cons_some hf] at hsorted
  refine List.filterMap_eq_nil_iff.mpr fun g hg => ?_
  cases hg' : g.fetched e with
  | none => rfl
  | some t =>
    have hlt := (List.pairwise_cons.mp hsorted).1 e
      (List.mem_filterMap.mpr ⟨g, hg, Frame.running_of_fetched hg'⟩)
    exact absurd hlt (lt_irrefl e)

omit [DecidableEq T] in
/-- The task that `run` of `e` has just dequeued. -/
theorem fetched_got (e : Fin N) (t : T) :
    [Frame.run e (.got t)].filterMap (Frame.fetched (V := V) e) = [t] :=
  List.filterMap_cons_some (if_pos rfl)

omit [DecidableEq T] in
theorem fetched_got_ne {e q : Fin N} (h : e ≠ q) (t : T) :
    [Frame.run q (.got t)].filterMap (Frame.fetched (V := V) e) = [] :=
  List.filterMap_cons_none (if_neg h.symm)

section Step

variable {s s' : Shared N T V} {f : Frame N T V} {ev : Event T V} {fs gs : List (Frame N T V)}
  {log : Fin N → FifoLog T}

theorem Inv.log_next (hI : Inv ⟨⟨s, f :: fs⟩, log⟩) (hn : Next s f ev s' gs) (e : Fin N) :
    (⟨(Kernel.turnsNext ⟨s, f :: fs⟩ ⟨s', gs ++ fs⟩ ev log e).pushed,
      (Kernel.turnsNext ⟨s, f :: fs⟩ ⟨s', gs ++ fs⟩ ev log e).taken ++ (gs ++ fs).filterMap (Frame.fetched e)⟩ :
      FifoLog T).Of (s'.queue e) := by
  have hb := Kernel.balanced hI.reachable
  have hlog : (⟨(log e).pushed, (log e).taken ++ (f :: fs).filterMap (Frame.fetched e)⟩ :
    FifoLog T).Of (s.queue e) := hI.log e
  rw [show f :: fs = [f] ++ fs from rfl, List.filterMap_append] at hlog
  rw [List.filterMap_append]
  cases hn.turnEffect with
  | keep hp hno hq hgs =>
    have hsame : Kernel.turnsNext ⟨s, f :: fs⟩ ⟨s', gs ++ fs⟩ ev log = log := by
      unfold Kernel.turnsNext
      cases ev with
      | tick =>
        have hnone : s.polls f (gs ++ fs) = none := by
          unfold Shared.polls
          split
          · rename_i q t
            exact absurd rfl (hno q t rfl)
          · rfl
        simp only [Shared.turnsTick, hp rfl, hnone]
      | _ => rfl
    rw [hsame, hq, hgs e]
    exact hlog
  | push t q hev hp hfresh hq hf hgs =>
    subst hev
    have hnext : Kernel.turnsNext ⟨s, f :: fs⟩ ⟨s', gs ++ fs⟩ .tick log = update log q ((log q).push (s.queue q) t) := by
      simp only [Kernel.turnsNext, Shared.turnsTick, hp]
    have hnot : ¬ Kernel.Linked ⟨s, f :: fs⟩ t := by
      rcases hfresh with hclear | howed
      · exact hb.not_linked (Or.inl hclear)
      · exact hb.not_linked (Or.inr (owed_pos List.mem_cons_self howed))
    rw [hnext, hgs e, hq]
    rw [List.filterMap_cons_none (hf e)] at hlog
    by_cases he : e = q
    · subst he
      rw [update_self, update_self]
      exact hlog.push fun ht => hnot ⟨e, ht⟩
    · rw [update_of_ne he, update_of_ne he]
      exact hlog
  | dequeue q t ts hev hf hgs hqe hq =>
    subst hev
    subst hf
    have hsame : Kernel.turnsNext ⟨s, .run q .top :: fs⟩ ⟨s', gs ++ fs⟩ .tick log = log := rfl
    rw [hsame, hgs, hq]
    by_cases he : e = q
    · subst he
      have hbelow := fetched_below (Kernel.nested hI.reachable).2 rfl
      rw [hbelow, hqe, List.append_nil, List.filterMap_cons_none rfl, List.filterMap_nil,
        List.append_nil] at hlog
      rw [hbelow, fetched_got, List.append_nil, update_self]
      exact hlog.pop
    · rw [fetched_got_ne he, update_of_ne he]
      exact hlog
  | got q t hev hf hq hgs hpolls =>
    subst hev
    subst hf
    have hnext : Kernel.turnsNext ⟨s, .run q (.got t) :: fs⟩ ⟨s', gs ++ fs⟩ .tick log =
        update log q ((log q).take t) := by
      simp only [Kernel.turnsNext, Shared.turnsTick, hpolls fs]
      rfl
    rw [hnext, hgs e, hq]
    by_cases he : e = q
    · subst he
      rw [update_self]
      rw [fetched_got] at hlog
      simpa [FifoLog.take] using hlog
    · rw [fetched_got_ne he] at hlog
      rw [update_of_ne he]
      exact hlog

end Step

theorem Inv.next {h h' : Turns N T V} {ev : Event T V} (hI : Inv h) (hs : step h ev = some h') :
    Inv h' := by
  obtain ⟨f, fs, s', gs, hh, rfl, hk, hn⟩ := step_some hs
  have hr : Kernel.Reachable ⟨s', gs ++ fs⟩ := hI.reachable.tail trivial hk
  rw [hh] at hI ⊢
  exact ⟨hr, hI.log_next hn⟩

theorem Inv.inTurn {h : Turns N T V} (hI : Inv h) : InTurn h := by
  intro e
  have hlog := hI.log e
  refine ⟨(List.prefix_append _ _).trans hlog.taken_prefix, fun xs ys zs t ht hno => ?_⟩
  have htaken : (h.log e).taken ++ h.kernel.frames.filterMap (Frame.fetched e) =
      xs ++ t :: (ys ++ t :: (zs ++ h.kernel.frames.filterMap (Frame.fetched e))) := by
    rw [ht]
    simp
  exact hlog.between htaken hno

theorem Inv.endsDrained {h : Turns N T V} (hI : Inv h) (ev : Event T V) : EndsDrained h ev := by
  intro h' e f fs gs hs hfr hf hfr' hno
  obtain ⟨f', fs', s', gs', hh, rfl, hk, hn⟩ := step_some hs
  rw [hh] at hfr
  obtain ⟨rfl, rfl⟩ := List.cons.inj hfr
  have hgs : gs' = gs := List.append_cancel_right hfr'
  subst hgs
  rcases hn.of_running hf with ⟨g, hg, hrun⟩ | ⟨hev, hft, hgs, hq, hq', hbm⟩
  · exact absurd hrun (hno g hg)
  · have hlog := hI.log e
    have hnone : (f' :: fs').filterMap (Frame.fetched e) = [] := by
      have hnest := (Kernel.nested hI.reachable).2
      rw [hh] at hnest
      rw [hft, List.filterMap_cons_none rfl]
      exact fetched_below hnest hf
    refine ⟨hev, hft, hgs, hq, (congrFun hq' e).trans hq, hbm, ?_, ?_⟩
    · rw [PriorityBitmap.mem_clear hbm e]
      exact fun hmem => hmem.1 rfl
    · have hord := hlog.order_eq
      rw [hq, List.append_nil] at hord
      have hfr : h.kernel.frames = f' :: fs' := by rw [hh]
      rw [hfr, hnone, List.append_nil] at hord
      exact hord.symm

theorem init_inv : Inv (init : Turns N T V) where
  reachable := .refl _
  log _ := FifoLog.empty_of

/-- **Scheduling within a priority is FIFO and exactly-once**, in every run:
what an executor polls is the beginning of what was pushed onto its queue,
each push once; between two polls of a task everything that stood ahead of
its second push is polled; and `run` returns only from the critical section
that found the queue empty and cleared the bit. -/
theorem polled_in_turn (es : List (Event T V)) :
    Always step InTurn (init (N := N)) es ∧ Along step EndsDrained (init (N := N)) es := by
  have hany : Along step (fun _ _ => True) (init : Turns N T V) es := along_true _ es
  refine ⟨?_, ?_⟩
  · exact always_of_along (I := Inv) (fun _ hI => hI.inTurn) (fun _ _ _ hI _ hs => hI.next hs)
      init_inv hany
  · exact along_of_along (I := Inv) (fun _ ev hI => hI.endsDrained ev)
      (fun _ _ _ hI _ hs => hI.next hs) init_inv hany

end Turns
end RtAsync

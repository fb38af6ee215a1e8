/-
# The drain loop

`main` can run the executors itself, with interrupts off:
`while let Some(rt) = try_preempt() { run(rt); complete_executor() }`. The
statements are those of `MachineSoft`, but for the interrupt enable, and no
trap is taken; `Frame.mret` is where the loop is left.

What the futures do is a list of scripts, one for each turn of the loop of
`run`: the calls into the executor that the poll makes, whether it returns
`Ready`, and the calls that the destructor makes then. If the scripts make
finitely many wakes and spawns in all, the loop ends. A wake or a spawn pays
for the link that it makes. The wake of a join handle is paid for by the
completed task: it leaves the roster of the tasks with a back-pointer or a
link, or it was linked again in its last poll, by a wake that paid more than
its link.

Key definitions: `Script`, `Drain.next`, `Drain.start`, `Covers`,
`Frame.credit`, `Drain.cost`, `Frame.rank`.
Key theorems: `Kernel.InOrder.loopStep`, `Drain.progress`, `Drain.drains`.
-/
import RtAsync.Lib.Iterate
import RtAsync.Executor.Coherence
import RtAsync.Executor.NoPanic

namespace RtAsync

open Function (update update_self update_of_ne)

variable {N : ℕ} {T V : Type}

/-! ### The loop -/

/-- What a future does at one turn: the calls of its poll, `Ready` or
`Pending`, and the calls of its destructor if it is ready. -/
structure Script (T V : Type) where
  requests : List (Request T)
  output : Option V
  drop : List (Request T)

namespace Script

/-- A call that may enqueue a task: a wake or a `Spawner::spawn`. -/
def enqueues : Request T → Bool
  | .wake _ => true
  | .spawn _ _ => true
  | _ => false

/-- The wakes and the spawns of a turn. -/
def wakes (sc : Script T V) : ℕ := sc.requests.countP enqueues + sc.drop.countP enqueues

/-- Only the calls that can be made: a spawn needs a token, and a priority
that there is. -/
def possible [DecidableEq T] (s : Shared N T V) (rs : List (Request T)) : List (Request T) :=
  rs.dropWhile fun r => (callStart s r).isNone

end Script

/-- The hart inside the loop, the rest of the script of the poll under way, and
how many turns have been made. -/
structure Drain (N : ℕ) (T V : Type) where
  kernel : Kernel N T V
  script : Script T V
  turns : ℕ

variable [DecidableEq T]

/-- A statement of the loop, with interrupts off: `run` is entered without
enabling them. -/
def Kernel.loopStep (k : Kernel N T V) (ev : Event T V) : Option (Kernel N T V) :=
  match k.frames with
  | .enable rt :: fs =>
    if h : rt.value < N then some ⟨k.shared, .run ⟨rt.value, h⟩ .start :: fs⟩ else none
  | _ => k.step ev

namespace Drain

/-- What happens next at the statement `f`, and the script and the number of
turns after it. -/
def plan (β : ℕ → Script T V) (d : Drain N T V) :
    Frame N T V → Event T V × Script T V × ℕ
  | .run _ (.got _) => (.tick, β d.turns, d.turns + 1)
  | .run _ (.poll _ none) => match Script.possible d.kernel.shared d.script.requests with
    | r :: rs => (.call r, { d.script with requests := rs }, d.turns)
    | [] => (d.script.output.elim .pending .ready, { d.script with requests := [] }, d.turns)
  | .run _ (.dropInPlace _ none) => match Script.possible d.kernel.shared d.script.drop with
    | r :: rs => (.call r, { d.script with drop := rs }, d.turns)
    | [] => (.ret, { d.script with drop := [] }, d.turns)
  | _ => (.tick, d.script, d.turns)

def next (β : ℕ → Script T V) (d : Drain N T V) : Option (Drain N T V) :=
  match d.kernel.frames with
  | [] => none
  | f :: _ =>
    let (ev, script, turns) := plan β d f
    (d.kernel.loopStep ev).map fun k => ⟨k, script, turns⟩

/-- `main`, where the shared state is `s`, enters the loop. -/
def start (s : Shared N T V) : Drain N T V := ⟨⟨s, [.tryPreempt, .base none]⟩, ⟨[], none, []⟩, 0⟩

/-- The loop has been left. -/
def Left (d : Drain N T V) : Prop := d.kernel.frames = [.mret, .base none]

end Drain

/-! ### The invariants of the hart, in the loop -/

namespace Kernel

/-- What holds in every state of the hart, and does not ask for the interrupt
enable. -/
structure InOrder (k : Kernel N T V) : Prop where
  bitmap : BitmapOk k.shared
  nested : Nested k
  coherent : Coherent k
  balanced : Balanced k
  launched : Launched k

theorem InOrder.of_reachable {k : Kernel N T V} (h : Reachable k) : InOrder k :=
  ⟨(Kernel.nested h).1, (Kernel.nested h).2, Kernel.coherent h, Kernel.balanced h, Kernel.launched h⟩

theorem InOrder.next {s s' : Shared N T V} {f : Frame N T V} {ev : Event T V}
    {fs gs : List (Frame N T V)} (h : InOrder ⟨s, f :: fs⟩) (hn : Next s f ev s' gs) :
    InOrder ⟨s', gs ++ fs⟩ :=
  ⟨h.bitmap.next hn, h.nested.next h.bitmap hn, h.coherent.next h.nested h.bitmap hn,
    h.balanced.next hn, h.launched.next hn⟩

/-- The interrupt enable is not asked for. -/
theorem InOrder.of_mie {s : Shared N T V} {b : Bool} {fs : List (Frame N T V)}
    (h : InOrder ⟨{ s with mie := b }, fs⟩) : InOrder ⟨s, fs⟩ :=
  ⟨⟨h.bitmap.wf, h.bitmap.lt⟩, ⟨h.nested.mirror, h.nested.sorted, h.nested.lt⟩,
    ⟨h.coherent.set, h.coherent.active, h.coherent.useful⟩, h.balanced, h.launched⟩

/-- A statement of the loop is one of `MachineSoft`, or enters `run`. -/
theorem loopStep_some {k k' : Kernel N T V} {ev : Event T V} (h : k.loopStep ev = some k') :
    ∃ f fs, k.frames = f :: fs ∧
      ((∃ s' gs, Next k.shared f ev s' gs ∧ k' = ⟨s', gs ++ fs⟩) ∨
        ∃ rt, ∃ hlt : rt.value < N, f = .enable rt ∧
          k' = ⟨k.shared, .run ⟨rt.value, hlt⟩ .start :: fs⟩) := by
  unfold loopStep at h
  split at h
  · rename_i rt fs hfr
    split at h
    · rename_i hlt
      obtain rfl := Option.some.inj h
      exact ⟨_, fs, hfr, Or.inr ⟨rt, hlt, rfl, rfl⟩⟩
    · cases h
  · obtain ⟨f, fs, s', gs, hk, rfl, hn⟩ := step_next h
    exact ⟨f, fs, by rw [hk], Or.inl ⟨s', gs, hn, rfl⟩⟩

theorem InOrder.loopStep {k k' : Kernel N T V} {ev : Event T V} (h : InOrder k)
    (hs : k.loopStep ev = some k') : InOrder k' := by
  obtain ⟨s, frames⟩ := k
  obtain ⟨f, fs, hfr, hcase⟩ := loopStep_some hs
  have hfr : frames = f :: fs := hfr
  subst hfr
  rcases hcase with ⟨s', gs, hn, rfl⟩ | ⟨rt, hlt, rfl, rfl⟩
  · exact h.next hn
  · exact (h.next (.enable hlt)).of_mie

/-- `main` enters the loop. -/
theorem InOrder.enter {s : Shared N T V} (h : InOrder ⟨s, [.base none]⟩) :
    InOrder ⟨s, [.tryPreempt, .base none]⟩ := by
  refine ⟨h.bitmap, ⟨h.nested.mirror, h.nested.sorted, h.nested.lt⟩,
    ⟨h.coherent.set, fun e hm hq => ?_, fun f hf he => ?_⟩, h.balanced, fun t ht => ?_⟩
  · obtain ⟨r, hr, -⟩ := h.coherent.active e hm hq
    cases List.mem_singleton.mp hr
  · rcases List.mem_cons.mp hf with rfl | hf
    · cases he
    · exact h.coherent.useful f hf he
  · refine h.launched t (ht.imp_right fun ⟨f, hf, hft⟩ => ?_)
    rcases List.mem_cons.mp hf with rfl | hf
    · cases hft
    · exact ⟨f, hf, hft⟩

end Kernel

/-! ### Links and the roster -/

/-- The links in all queues. -/
def Shared.size (s : Shared N T V) : ℕ := ∑ e, (s.queue e).length

omit [DecidableEq T] in
theorem Shared.size_push {s s' : Shared N T V} {e : Fin N} {t : T}
    (h : s'.queue = update s.queue e (s.queue e ++ [t])) : s'.size = s.size + 1 := by
  have hsum := sum_update s.queue e (s.queue e ++ [t]) List.length
  rw [List.length_append, List.length_singleton] at hsum
  rw [Shared.size, Shared.size, h]
  omega

omit [DecidableEq T] in
theorem Shared.size_pop {s s' : Shared N T V} {e : Fin N} {t : T} {ts : List T}
    (hq : s.queue e = t :: ts) (h : s'.queue = update s.queue e ts) : s'.size + 1 = s.size := by
  have hsum := sum_update s.queue e ts List.length
  rw [hq, List.length_cons] at hsum
  rw [Shared.size, Shared.size, h]
  omega

/-- What a call may still enqueue: a link, a place on the roster, and a link of
the task that is being polled. -/
def Call.credit : Call N T → ℕ
  | .wake _ => 3
  | .wakeFlag _ _ => 3
  | .wakePush _ _ => 3
  | .spawnFlag _ _ => 3
  | .spawnPush _ _ => 3
  | _ => 0

namespace Frame

/-- The task that has been dequeued, until its back-pointer is null. -/
def current : Frame N T V → Option T
  | run _ (.got t) => some t
  | run _ (.poll t _) => some t
  | run _ (.storeResult t _) => some t
  | run _ (.storeNull t) => some t
  | _ => none

/-- A completion under way has its wake of the join handle to pay; a task that
may complete has its new link, or will leave the roster. -/
def stage (s : Shared N T V) (f : Frame N T V) : ℕ :=
  match f with
  | run _ (.dropInPlace _ _) => 1
  | run _ (.storeExited _) => 1
  | run _ (.notify _) => 1
  | f => f.current.elim 0 s.links

def credit (s : Shared N T V) (f : Frame N T V) : ℕ := f.calling.elim 0 Call.credit + f.stage s

end Frame

/-- `S` has every task with a back-pointer or a link, and the one that is being
polled. -/
structure Covers (s : Shared N T V) (f : Frame N T V) (S : Finset T) : Prop where
  ptr : ∀ t, s.ptr t ≠ none → t ∈ S
  linked : ∀ e, ∀ t ∈ s.queue e, t ∈ S
  current : ∀ t, f.current = some t → t ∈ S

/-- What is still to be paid for, with the roster `S`. -/
def weight (s : Shared N T V) (f : Frame N T V) (S : Finset T) : ℕ := f.credit s + s.size + S.card

namespace Covers

variable {s s' : Shared N T V} {f g : Frame N T V} {S : Finset T}

omit [DecidableEq T] in
/-- A step that leaves the queues and the back-pointers. -/
theorem keep (h : Covers s f S) (hq : s'.queue = s.queue) (hp : s'.ptr = s.ptr)
    (hg : ∀ t, g.current = some t → f.current = some t) : Covers s' g S :=
  ⟨fun t ht => h.ptr t (hp ▸ ht), fun e t ht => h.linked e t (hq ▸ ht),
    fun t ht => h.current t (hg t ht)⟩

omit [DecidableEq T] in
/-- A push of a task on the roster. -/
theorem push (h : Covers s f S) {e : Fin N} {t : T} (ht : t ∈ S)
    (hq : s'.queue = update s.queue e (s.queue e ++ [t]))
    (hp : ∀ u, s'.ptr u ≠ none → s.ptr u ≠ none ∨ u = t)
    (hg : ∀ t, g.current = some t → f.current = some t) : Covers s' g S := by
  refine ⟨fun u hu => ?_, fun e' u hu => ?_, fun u hu => h.current u (hg u hu)⟩
  · rcases hp u hu with hu | rfl
    · exact h.ptr u hu
    · exact ht
  · rw [hq] at hu
    rcases mem_update_push hu with hu | ⟨rfl, -⟩
    · exact h.linked e' u hu
    · exact ht

theorem insert (h : Covers s f S) (t : T) : Covers s f (insert t S) :=
  ⟨fun u hu => Finset.mem_insert_of_mem (h.ptr u hu),
    fun e u hu => Finset.mem_insert_of_mem (h.linked e u hu),
    fun u hu => Finset.mem_insert_of_mem (h.current u hu)⟩

end Covers

/-! ### What a step costs -/

section Weight

variable {s s' : Shared N T V} {f : Frame N T V} {S : Finset T}

omit [DecidableEq T] in
theorem Frame.setCall_current (f : Frame N T V) (c : Option (Call N T)) :
    (f.setCall c).current = f.current := by
  unfold setCall
  split <;> rfl

theorem Frame.stage_setCall (f : Frame N T V) (c : Option (Call N T)) :
    (f.setCall c).stage s = f.stage s := by
  unfold setCall
  split <;> rfl

theorem Frame.stage_congr (h : s'.queue = s.queue) (f : Frame N T V) : f.stage s' = f.stage s := by
  have hlinks : s'.links = s.links := by
    funext t
    rw [Shared.links, h, Shared.links]
  unfold stage
  rw [hlinks]

/-- A push makes at most one more link of the current task. -/
theorem Frame.stage_push {e : Fin N} {t : T} (h : s'.queue = update s.queue e (s.queue e ++ [t]))
    (f : Frame N T V) : f.stage s' ≤ f.stage s + 1 := by
  have hlinks : ∀ u, s'.links u ≤ s.links u + 1 := fun u => by
    rw [Shared.links_push h u]
    split <;> omega
  unfold stage
  split
  · omega
  · omega
  · omega
  · cases f.current with
    | none => simp
    | some u => exact hlinks u

omit [DecidableEq T] in
theorem Shared.size_congr (h : s'.queue = s.queue) : s'.size = s.size := by
  rw [Shared.size, h, Shared.size]

/-- An access of a call raises no credit, and a push spends it. -/
theorem callStep_credit {c : Call N T} {c' : Option (Call N T)}
    (h : callStep s c = some (s', c')) :
    c'.elim 0 Call.credit ≤ c.credit ∧ (c.push ≠ none → c'.elim 0 Call.credit + 3 ≤ c.credit) := by
  cases callStep_next h with
  | wakePush => exact ⟨Nat.zero_le _, fun _ => Nat.le_refl _⟩
  | spawnPush => exact ⟨Nat.zero_le _, fun _ => Nat.le_refl _⟩
  | wake => exact ⟨Nat.le_refl _, fun h => absurd rfl h⟩
  | wakeFlag => exact ⟨Nat.le_refl _, fun h => absurd rfl h⟩
  | spawnFlag => exact ⟨Nat.le_refl _, fun h => absurd rfl h⟩
  | _ => exact ⟨Nat.zero_le _, fun h => absurd rfl h⟩

/-- A call pays for what it enqueues. -/
theorem callStep_weight {c : Call N T} {c' : Option (Call N T)} (hu : f.user = some (some c))
    (hcov : Covers s f S) (h : callStep s c = some (s', c')) :
    ∃ S', Covers s' (f.setCall c') S' ∧ weight s' (f.setCall c') S' ≤ weight s f S := by
  obtain ⟨hcredit, hspend⟩ := callStep_credit h
  have hcur : ∀ t, (f.setCall c').current = some t → f.current = some t := fun t ht => by
    rwa [Frame.setCall_current] at ht
  have hquiet : s'.queue = s.queue → s'.ptr = s.ptr →
      ∃ S', Covers s' (f.setCall c') S' ∧ weight s' (f.setCall c') S' ≤ weight s f S := by
    intro hq hp
    refine ⟨S, hcov.keep hq hp hcur, ?_⟩
    unfold weight Frame.credit
    rw [Shared.size_congr hq, Frame.setCall_calling hu, Frame.calling_eq hu, Frame.stage_setCall,
      Frame.stage_congr hq]
    simp only [Option.elim_some]
    omega
  cases callStep_queueEffect hu h with
  | keep _ hq _ hp => exact hquiet hq hp
  | flag _ _ _ _ _ _ _ _ hq _ hp => exact hquiet hq hp
  | push t e f' _ _ hf _ hq _ hp =>
    have hpush : c.push ≠ none := by
      rw [Frame.push_call hu] at hf
      simp [hf]
    have hptr : ∀ u, s'.ptr u ≠ none → s.ptr u ≠ none ∨ u = t := fun u hu => by
      by_cases hut : u = t
      · exact Or.inr hut
      · rw [hp, update_of_ne hut] at hu
        exact Or.inl hu
    refine ⟨insert t S, (hcov.insert t).push (Finset.mem_insert_self t S) hq hptr hcur, ?_⟩
    have hcard := Finset.card_insert_le t S
    have hstage := Frame.stage_push hq f
    have hspent := hspend hpush
    unfold weight Frame.credit
    rw [Shared.size_push hq, Frame.setCall_calling hu, Frame.calling_eq hu, Frame.stage_setCall]
    simp only [Option.elim_some]
    omega
  | wake _ _ _ _ _ hf => rw [hf] at hu; cases hu
  | storeNull _ _ _ hf => rw [hf] at hu; cases hu
  | dequeue _ _ _ _ hf => rw [hf] at hu; cases hu
  | drained _ _ hf => rw [hf] at hu; cases hu

/-- The despawn, which may wake the join handle: its waiter is on the roster. -/
theorem notify_weight {e : Fin N} {t : T} (hcov : Covers s (.run e (.notify t)) S)
    (h : s.notifyLocked t = some s') :
    Covers s' (.run e .top) S ∧ weight s' (.run e .top) S ≤ weight s (.run e (.notify t)) S := by
  have hcur : ∀ u, (Frame.run e .top : Frame N T V).current = some u →
      (Frame.run e (.notify t) : Frame N T V).current = some u := fun u hu => by cases hu
  have hbefore : (Frame.run e (.notify t) : Frame N T V).credit s = 1 := rfl
  have hafter : (Frame.run e .top : Frame N T V).credit s' = 0 := rfl
  unfold weight
  rw [hbefore, hafter]
  cases notifyLocked_queueEffect (q := e) h with
  | keep _ hq _ hp =>
    refine ⟨hcov.keep hq hp hcur, ?_⟩
    rw [Shared.size_congr hq]
    omega
  | wake w e' q v _ _ _ _ hptr hq _ hp =>
    have hw : w ∈ S := hcov.ptr w (by simp [hptr])
    refine ⟨hcov.push hw hq (fun u hu => Or.inl (hp ▸ hu)) hcur, ?_⟩
    rw [Shared.size_push hq]
    omega
  | flag _ _ _ _ _ hf => rcases hf with hf | hf <;> cases hf
  | push _ _ _ _ _ hf => cases hf
  | storeNull _ _ _ hf => cases hf
  | dequeue _ _ _ _ hf => cases hf
  | drained _ _ hf => cases hf

/-- A task whose back-pointer becomes null leaves the roster, unless it is
linked. -/
theorem storeNull_weight {e : Fin N} {t : T} (hcov : Covers s (.run e (.storeNull t)) S) :
    ∃ S', Covers (s.setTask t { s.tasks t with executorPtr := none })
        (.run e (.dropInPlace t none)) S' ∧
      weight (s.setTask t { s.tasks t with executorPtr := none })
        (.run e (.dropInPlace t none)) S' ≤ weight s (.run e (.storeNull t)) S := by
  have hptr : ∀ u, (s.setTask t { s.tasks t with executorPtr := none }).ptr u ≠ none →
      u ≠ t ∧ s.ptr u ≠ none := fun u hu => by
    rw [Shared.setTask_ptr] at hu
    by_cases hut : u = t
    · rw [hut, update_self] at hu
      exact absurd rfl hu
    · rw [update_of_ne hut] at hu
      exact ⟨hut, hu⟩
  have hbefore : (Frame.run e (.storeNull t) : Frame N T V).credit s = s.links t :=
    Nat.zero_add _
  have hafter : ∀ s' : Shared N T V,
      (Frame.run e (.dropInPlace t none) : Frame N T V).credit s' = 1 := fun _ => rfl
  unfold weight
  rw [hbefore, hafter]
  rcases Nat.eq_zero_or_pos (s.links t) with hzero | hpos
  · have hmem : t ∈ S := hcov.current t rfl
    refine ⟨S.erase t, ⟨fun u hu => ?_, fun e' u hu => ?_, fun u hu => by cases hu⟩, ?_⟩
    · exact Finset.mem_erase.mpr ⟨(hptr u hu).1, hcov.ptr u (hptr u hu).2⟩
    · refine Finset.mem_erase.mpr ⟨fun hut => ?_, hcov.linked e' u hu⟩
      have hlinked : 0 < s.links t := (s.links_pos_iff t).mpr ⟨e', hut ▸ hu⟩
      omega
    · have hcard := Finset.card_erase_add_one hmem
      have hsize : (s.setTask t { s.tasks t with executorPtr := none }).size = s.size := rfl
      omega
  · refine ⟨S, ⟨fun u hu => hcov.ptr u (hptr u hu).2, hcov.linked, fun u hu => by cases hu⟩, ?_⟩
    have hsize : (s.setTask t { s.tasks t with executorPtr := none }).size = s.size := rfl
    omega

/-- A dequeued task was linked once. -/
theorem dequeue_weight {e : Fin N} {t : T} {ts : List T} {fs : List (Frame N T V)}
    (hb : Kernel.Balanced ⟨s, .run e .top :: fs⟩) (hcov : Covers s (.run e .top) S)
    (hqe : s.queue e = t :: ts) (hq : s'.queue = update s.queue e ts) (hp : s'.ptr = s.ptr) :
    Covers s' (.run e (.got t)) S ∧ weight s' (.run e (.got t)) S < weight s (.run e .top) S := by
  have hmem : t ∈ s.queue e := by
    rw [hqe]
    exact List.mem_cons_self
  have hlinks : s'.links t = 0 := by
    have hpop := Shared.links_pop hqe hq t
    have hbal : s.links t + owed (.run e .top :: fs) t = (s.flag t).toNat := hb t
    have hle := Bool.toNat_le (s.flag t)
    rw [if_pos rfl] at hpop
    omega
  refine ⟨⟨fun u hu => hcov.ptr u (hp ▸ hu), fun e' u hu => ?_, fun u hu => ?_⟩, ?_⟩
  · rw [hq] at hu
    exact hcov.linked e' u (mem_update_pop hqe hu)
  · obtain rfl := Option.some.inj hu
    exact hcov.linked e t hmem
  · have hbefore : (Frame.run e .top : Frame N T V).credit s = 0 := rfl
    have hafter : (Frame.run e (.got t) : Frame N T V).credit s' = s'.links t := Nat.zero_add _
    have hsize := Shared.size_pop hqe hq
    unfold weight
    rw [hbefore, hafter, hlinks]
    omega

end Weight

/-! ### Statements to go -/

/-- The accesses that a call has to go, at most. -/
def Call.rank : Call N T → ℕ
  | .wake _ => 5
  | .wakeFlag _ _ => 4
  | .wakePush _ _ => 3
  | .pendMark => 2
  | .pendSend => 1
  | .spawnFlag _ _ => 3
  | .spawnPush _ _ => 2
  | .spawnPend => 1
  | .storageFlag _ => 5
  | .storageResult _ => 4
  | .storageWaker _ => 3
  | .storageFn _ => 2
  | .storageWrite _ => 1
  | .joinTake _ _ => 2
  | .joinStore _ _ => 1

omit [DecidableEq T] in
theorem Call.rank_le (c : Call N T) : c.rank ≤ 5 := by
  cases c <;> simp [rank]

theorem callStep_rank {s s' : Shared N T V} {c : Call N T} {c' : Option (Call N T)}
    (h : callStep s c = some (s', c')) : c'.elim 0 Call.rank < c.rank := by
  cases callStep_next h with
  | _ => simp [Call.rank]

namespace Frame

/-- A statement of the loop. -/
def looping : Frame N T V → Bool
  | tryPreempt => true
  | enable _ => true
  | run _ _ => true
  | disable _ => true
  | completeExecutor _ => true
  | _ => false

/-- The statements to the next dequeue, where `sc` is the rest of the script and
`nxt` the script of the next turn. From the dequeue that finds nothing it is
the statements out of `run` and, unless the loop is left, into the next one,
which has something to dequeue. -/
def rank (s : Shared N T V) (sc nxt : Script T V) : Frame N T V → ℕ
  | run _ (.got _) => 13 + 10 * (nxt.requests.length + nxt.drop.length)
  | run _ (.poll _ c) =>
    12 + 10 * (sc.requests.length + sc.drop.length) + c.elim 0 Call.rank
  | run _ (.storeResult _ _) => 11 + 10 * sc.drop.length
  | run _ (.storeNull _) => 10 + 10 * sc.drop.length
  | run _ (.dropInPlace _ c) => 9 + 10 * sc.drop.length + c.elim 0 Call.rank
  | run _ (.storeExited _) => 8
  | run _ (.notify _) => 7
  | run e .top => if s.queue e = [] then 6 else 0
  | disable _ => 5
  | completeExecutor _ => 4
  | tryPreempt => 3
  | enable _ => 2
  | run _ .start => 1
  | _ => 0

omit [DecidableEq T] in
theorem rank_top_le (s : Shared N T V) (sc nxt : Script T V) (e : Fin N) :
    (run e .top : Frame N T V).rank s sc nxt ≤ 6 := by
  simp only [rank]
  split <;> omega

omit [DecidableEq T] in
/-- User code of the loop is inside a poll or a destructor. -/
theorem looping_user {f : Frame N T V} {c : Option (Call N T)} (hl : f.looping = true)
    (hu : f.user = some c) :
    (∃ e t, f = run e (.poll t c)) ∨ ∃ e t, f = run e (.dropInPlace t c) := by
  rcases user_cases hu with rfl | rfl | rfl | h | h
  · cases hl
  · cases hl
  · cases hl
  · exact Or.inl h
  · exact Or.inr h

end Frame

section Moves

variable {s s' : Shared N T V} {f : Frame N T V} {S : Finset T}

/-- A step of the loop goes to a statement of it, or out of it, and either makes
what is to be paid for less or comes closer to the next dequeue. -/
structure Moves (s : Shared N T V) (f : Frame N T V) (S : Finset T) (s' : Shared N T V)
    (g : Frame N T V) (S' : Finset T) (before after : ℕ) : Prop where
  stays : g.looping = true ∨ g = .mret
  covers : Covers s' g S'
  lower : weight s' g S' < weight s f S ∨ weight s' g S' ≤ weight s f S ∧ after < before

/-- The next access of an activation in the loop, outside of `try_preempt`'s
token and of a task just dequeued. -/
theorem tick_moves {ev : Event T V} {fs gs : List (Frame N T V)}
    (hin : Kernel.InOrder ⟨s, f :: fs⟩) (hl : f.looping = true) (hcov : Covers s f S)
    (hev : ev = .tick) (hgot : ∀ e t, f ≠ .run e (.got t)) (hen : ∀ rt, f ≠ .enable rt)
    (sc nxt : Script T V) (h : Next s f ev s' gs) :
    ∃ g S', gs = [g] ∧ Moves s f S s' g S' (f.rank s sc nxt) (g.rank s' sc nxt) := by
  -- a statement that touches neither queues nor back-pointers nor credits
  have hquiet : ∀ g : Frame N T V, gs = [g] → s'.queue = s.queue → s'.ptr = s.ptr →
      (g.looping = true ∨ g = .mret) → (∀ t, g.current = some t → f.current = some t) →
      g.credit s' ≤ f.credit s → g.rank s' sc nxt < f.rank s sc nxt →
      ∃ g S', gs = [g] ∧ Moves s f S s' g S' (f.rank s sc nxt) (g.rank s' sc nxt) := by
    intro g hgs hq hp hstay hcur hcredit hrank
    refine ⟨g, S, hgs, hstay, hcov.keep hq hp hcur, Or.inr ⟨?_, hrank⟩⟩
    unfold weight
    rw [Shared.size_congr hq]
    omega
  have hdequeue : ∀ e t ts, f = .run e .top → gs = [.run e (.got t)] → s.queue e = t :: ts →
      s'.queue = update s.queue e ts → s'.ptr = s.ptr →
      ∃ g S', gs = [g] ∧ Moves s f S s' g S' (f.rank s sc nxt) (g.rank s' sc nxt) := by
    intro e t ts hf hgs hqe hq hp
    subst hf
    obtain ⟨hcov', hweight⟩ := dequeue_weight hin.balanced hcov hqe hq hp
    exact ⟨_, S, hgs, Or.inl rfl, hcov', Or.inl hweight⟩
  cases h with
  | call hu hc =>
    obtain ⟨S', hcov', hweight⟩ := callStep_weight hu hcov hc
    have hrank := callStep_rank hc
    rename_i c c'
    refine ⟨_, S', rfl, ?_, hcov', Or.inr ⟨hweight, ?_⟩⟩
    · rcases Frame.looping_user hl hu with ⟨e, t, rfl⟩ | ⟨e, t, rfl⟩
      · exact Or.inl rfl
      · exact Or.inl rfl
    · rcases Frame.looping_user hl hu with ⟨e, t, rfl⟩ | ⟨e, t, rfl⟩
      · simp only [Frame.setCall, Frame.rank, Option.elim_some]
        omega
      · simp only [Frame.setCall, Frame.rank, Option.elim_some]
        omega
  | begin => cases hev
  | setMie => cases hev
  | trapSoft => cases hev
  | trapIsr => cases hev
  | external => cases hev
  | isrRet => cases hl
  | hookRet => cases hl
  | swap => cases hl
  | clear => cases hl
  | mret => cases hl
  | pending => cases hev
  | ready => cases hev
  | dropInPlace => cases hev
  | enable => exact absurd rfl (hen _)
  | gotPoll => exact absurd rfl (hgot _ _)
  | gotExited => exact absurd rfl (hgot _ _)
  | preempt =>
    exact hquiet _ rfl rfl rfl (Or.inl rfl) (fun t ht => by cases ht) (Nat.le_refl _)
      (by simp [Frame.rank])
  | noPreempt =>
    exact hquiet _ rfl rfl rfl (Or.inr rfl) (fun t ht => by cases ht) (Nat.le_refl _)
      (by simp [Frame.rank])
  | runStart e =>
    have hne : s.queue e ≠ [] := hin.coherent.useful _ List.mem_cons_self rfl e rfl
    exact hquiet _ rfl rfl rfl (Or.inl rfl) (fun t ht => by cases ht) (Nat.le_refl _)
      (by simp [Frame.rank, hne])
  | dequeue hqe =>
    exact hdequeue _ _ _ rfl rfl hqe rfl (Shared.setTask_ptr_eq _ _ rfl)
  | drained hqe =>
    exact hquiet _ rfl rfl rfl (Or.inl rfl) (fun t ht => by cases ht) (Nat.le_refl _)
      (by simp [Frame.rank, hqe])
  | storeResult e t v =>
    refine hquiet _ rfl rfl (Shared.setTask_ptr_eq _ _ rfl) (Or.inl rfl) (fun u hu => hu)
      (Nat.le_refl _) ?_
    simp only [Frame.rank]
    omega
  | storeNull e t =>
    obtain ⟨S', hcov', hweight⟩ := storeNull_weight hcov
    refine ⟨_, S', rfl, Or.inl rfl, hcov', Or.inr ⟨hweight, ?_⟩⟩
    simp only [Frame.rank, Option.elim_none]
    omega
  | storeExited e t =>
    exact hquiet _ rfl rfl (Shared.setTask_ptr_eq _ _ rfl) (Or.inl rfl)
      (fun u hu => by cases hu) (Nat.le_refl _) (by simp [Frame.rank])
  | notify hn =>
    obtain ⟨hcov', hweight⟩ := notify_weight hcov hn
    refine ⟨_, S, rfl, Or.inl rfl, hcov', Or.inr ⟨hweight, ?_⟩⟩
    have htop := Frame.rank_top_le s' sc nxt
    exact Nat.lt_of_le_of_lt (htop _) (Nat.lt_succ_self 6)
  | disable e =>
    exact hquiet _ rfl rfl rfl (Or.inl rfl) (fun t ht => by cases ht) (Nat.le_refl _)
      (by simp [Frame.rank])
  | complete e =>
    exact hquiet _ rfl rfl rfl (Or.inl rfl) (fun t ht => by cases ht) (Nat.le_refl _)
      (by simp [Frame.rank])

end Moves

/-! ### The scripts -/

section Scripts

variable {s s' : Shared N T V} {f : Frame N T V} {S : Finset T}

/-- The first call of a script that can be made, and the rest. -/
theorem Script.possible_cons {l rs : List (Request T)} {r : Request T}
    (h : possible s l = r :: rs) : (callStart s r).isSome ∧ rs.length + 1 ≤ l.length ∧
      rs.countP enqueues + (if enqueues r then 1 else 0) ≤ l.countP enqueues := by
  have hsub : (r :: rs).Sublist l := h ▸ List.dropWhile_sublist _
  have hhead := List.head?_dropWhile_not (fun r => (callStart s r).isNone) l
  rw [show l.dropWhile _ = _ from h] at hhead
  refine ⟨by simpa using hhead, hsub.length_le, ?_⟩
  rw [← List.countP_cons]
  exact hsub.countP_le

theorem callStart_credit {r : Request T} {c : Call N T} (h : callStart s r = some (s', c)) :
    c.credit = if Script.enqueues r then 3 else 0 := by
  cases callStart_next h with
  | _ => rfl

/-- A call begins. -/
theorem callStart_weight {r : Request T} {c : Call N T} (hu : f.user = some none)
    (hcov : Covers s f S) (h : callStart s r = some (s', c)) :
    Covers s' (f.setCall (some c)) S ∧
      weight s' (f.setCall (some c)) S = weight s f S + if Script.enqueues r then 3 else 0 := by
  have hcredit := callStart_credit h
  obtain ⟨⟨tk, rfl⟩, -⟩ := callStart_shared h
  refine ⟨hcov.keep rfl rfl fun t ht => by rwa [Frame.setCall_current] at ht, ?_⟩
  unfold weight Frame.credit
  rw [Frame.setCall_calling hu, Frame.calling_eq hu, Frame.stage_setCall, ← hcredit]
  have hstage : f.stage { s with tokens := tk } = f.stage s := Frame.stage_congr rfl f
  have hsize : Shared.size { s with tokens := tk } = s.size := rfl
  simp only [Option.elim_some, Option.elim_none]
  omega

end Scripts

/-! ### Progress -/

namespace Drain

variable {β : ℕ → Script T V} {d : Drain N T V} {f : Frame N T V} {S : Finset T}

/-- Where the loop stands, with the roster `S`. -/
structure At (d : Drain N T V) (f : Frame N T V) (S : Finset T) : Prop where
  frames : d.kernel.frames = [f, .base none]
  stays : f.looping = true ∨ f = .mret
  covers : Covers d.kernel.shared f S
  inOrder : d.kernel.InOrder

/-- What is still to be paid for, where the scripts make at most `B` wakes and
spawns, and the statements to the next dequeue. -/
def cost (β : ℕ → Script T V) (B : ℕ) (d : Drain N T V) (f : Frame N T V) (S : Finset T) : ℕ × ℕ :=
  (4 * (B - ∑ i ∈ Finset.range d.turns, (β i).wakes) + 4 * d.script.wakes +
    weight d.kernel.shared f S, f.rank d.kernel.shared d.script (β d.turns))

theorem next_eq {fs gs : List (Frame N T V)} {ev : Event T V} {sc : Script T V} {turns : ℕ}
    {s' : Shared N T V} (hfr : d.kernel.frames = f :: fs) (hplan : plan β d f = (ev, sc, turns))
    (hen : ∀ rt, f ≠ .enable rt) (hstep : frameStep d.kernel.shared f ev = some (s', gs)) :
    next β d = some ⟨⟨s', gs ++ fs⟩, sc, turns⟩ := by
  have hk : d.kernel.loopStep ev = some ⟨s', gs ++ fs⟩ := by
    unfold Kernel.loopStep
    split
    · rename_i rt fs' hfr'
      rw [hfr] at hfr'
      exact absurd (List.cons.inj hfr').1 (hen rt)
    · unfold Kernel.step
      rw [hfr]
      simp only [hstep, Option.map_some]
  unfold next
  rw [hfr]
  simp only [hplan, hk, Option.map_some]

/-- The loop goes on, and what it has to go through is lower. -/
def Advances (β : ℕ → Script T V) (B : ℕ) (d : Drain N T V) (f : Frame N T V) (S : Finset T) :
    Prop :=
  ∃ d' f' S', next β d = some d' ∧ At d' f' S' ∧ Iterate.Lower (cost β B d' f' S') (cost β B d f S)

variable {B : ℕ}

theorem At.here (h : At d f S) : Kernel.InOrder ⟨d.kernel.shared, [f, .base none]⟩ := by
  rw [← h.frames]
  exact h.inOrder

theorem At.advances (h : At d f S) {ev : Event T V} {sc : Script T V} {turns : ℕ}
    {s' : Shared N T V} {g : Frame N T V} {S' : Finset T} (hplan : plan β d f = (ev, sc, turns))
    (hen : ∀ rt, f ≠ .enable rt) (hstep : frameStep d.kernel.shared f ev = some (s', [g]))
    (hstay : g.looping = true ∨ g = .mret) (hcov : Covers s' g S')
    (hlow : Iterate.Lower (cost β B ⟨⟨s', [g, .base none]⟩, sc, turns⟩ g S') (cost β B d f S)) :
    Advances β B d f S := by
  exact ⟨_, g, S', next_eq h.frames hplan hen hstep,
    ⟨rfl, hstay, hcov, h.here.next (frameStep_next hstep)⟩, hlow⟩

/-- At a statement of the executor. -/
theorem At.advances_tick (h : At d f S) (hN : N ≤ 4096) (hl : f.looping = true)
    (hplan : plan β d f = (.tick, d.script, d.turns)) (hidle : f.user ≠ some none)
    (hgot : ∀ e t, f ≠ .run e (.got t)) (hen : ∀ rt, f ≠ .enable rt) : Advances β B d f S := by
  have hin := h.here
  obtain ⟨⟨s', gs⟩, hstep⟩ := Option.isSome_iff_exists.mp
    (Kernel.tick_isSome hN hin.bitmap hin.nested hin.launched hidle)
  obtain ⟨g, S', rfl, hmove⟩ := tick_moves hin hl h.covers rfl hgot hen d.script (β d.turns)
    (tickStep_next hstep)
  refine h.advances hplan hen hstep hmove.stays hmove.covers ?_
  have hlow := hmove.lower
  simp only [Iterate.Lower, cost]
  omega

/-- At a task that has just been dequeued. -/
theorem At.advances_got {e : Fin N} {t : T} (h : At d (.run e (.got t)) S) (hN : N ≤ 4096)
    (hB : ∀ n, ∑ i ∈ Finset.range n, (β i).wakes ≤ B) : Advances β B d (.run e (.got t)) S := by
  have hin := h.here
  obtain ⟨⟨s', gs⟩, hstep⟩ := Option.isSome_iff_exists.mp
    (Kernel.tick_isSome hN hin.bitmap hin.nested hin.launched (by simp [Frame.user]))
  -- the wakes of the next script come out of those that are left
  have hsum := Finset.sum_range_succ (fun i => (β i).wakes) d.turns
  have hbound := hB (d.turns + 1)
  have hplan : plan β d (.run e (.got t)) = (.tick, β d.turns, d.turns + 1) := rfl
  have hcredit : (Frame.run e (.got t) : Frame N T V).credit d.kernel.shared =
      d.kernel.shared.links t := Nat.zero_add _
  cases tickStep_next hstep with
  | call hu => cases hu
  | gotPoll =>
    refine h.advances hplan (fun _ => by simp) hstep (Or.inl rfl)
      (h.covers.keep rfl rfl fun _ hu => hu) ?_
    have hafter : (Frame.run e (.poll t none) : Frame N T V).credit d.kernel.shared =
        d.kernel.shared.links t := Nat.zero_add _
    simp only [Iterate.Lower, cost, weight, hcredit, hafter, Frame.rank, Option.elim_none]
    omega
  | gotExited =>
    refine h.advances hplan (fun _ => by simp) hstep (Or.inl rfl)
      (h.covers.keep rfl rfl fun _ hu => by cases hu) ?_
    have hafter : (Frame.run e .top : Frame N T V).credit d.kernel.shared = 0 := rfl
    have htop := Frame.rank_top_le d.kernel.shared (β d.turns) (β (d.turns + 1)) e
    have hrank : (Frame.run e (.got t) : Frame N T V).rank d.kernel.shared d.script (β d.turns) =
        13 + 10 * ((β d.turns).requests.length + (β d.turns).drop.length) := rfl
    simp only [Iterate.Lower, cost, weight, hcredit, hafter, hrank]
    omega

/-- Where a future or a destructor makes its next call. -/
theorem At.advances_call (h : At d f S) (hl : f.looping = true) (hu : f.user = some none)
    {r : Request T} {sc : Script T V} (hplan : plan β d f = (.call r, sc, d.turns))
    (hr : (callStart d.kernel.shared r).isSome)
    (hwakes : sc.wakes + (if Script.enqueues r then 1 else 0) ≤ d.script.wakes)
    (hrank : ∀ s' (c : Call N T), (f.setCall (some c)).rank s' sc (β d.turns) <
      f.rank d.kernel.shared d.script (β d.turns)) : Advances β B d f S := by
  obtain ⟨⟨s', c⟩, hstart⟩ := Option.isSome_iff_exists.mp hr
  have hstep : frameStep d.kernel.shared f (.call r) = some (s', [f.setCall (some c)]) := by
    unfold frameStep
    simp only [hu, if_true, hstart, Option.map_some]
  obtain ⟨hcov, hweight⟩ := callStart_weight hu h.covers hstart
  have hen : ∀ rt, f ≠ .enable rt := fun rt hf => by
    rw [hf] at hu
    cases hu
  have hstay : (f.setCall (some c)).looping = true := by
    rcases Frame.looping_user hl hu with ⟨e, t, rfl⟩ | ⟨e, t, rfl⟩ <;> rfl
  refine h.advances hplan hen hstep (Or.inl hstay) hcov ?_
  have hlower := hrank s' c
  simp only [Iterate.Lower, cost, hweight]
  by_cases hq : Script.enqueues r = true
  · rw [if_pos hq] at hwakes ⊢
    omega
  · rw [if_neg hq] at hwakes ⊢
    omega

/-- In the poll of a future. -/
theorem At.advances_poll {e : Fin N} {t : T} (h : At d (.run e (.poll t none)) S) :
    Advances β B d (.run e (.poll t none)) S := by
  cases hrs : Script.possible d.kernel.shared d.script.requests with
  | cons r rs =>
    obtain ⟨hr, hlen, hcount⟩ := Script.possible_cons hrs
    have hplan : plan β d (.run e (.poll t none)) =
        (.call r, { d.script with requests := rs }, d.turns) := by
      simp only [plan, hrs]
    refine h.advances_call rfl rfl hplan hr ?_ fun s' c => ?_
    · simp only [Script.wakes]
      omega
    · have hc := c.rank_le
      simp only [Frame.setCall, Frame.rank, Option.elim_some, Option.elim_none]
      omega
  | nil =>
    have hcredit : (Frame.run e (.poll t none) : Frame N T V).credit d.kernel.shared =
        d.kernel.shared.links t := Nat.zero_add _
    cases hout : d.script.output with
    | none =>
      have hplan : plan β d (.run e (.poll t none)) =
          (.pending, { d.script with requests := [] }, d.turns) := by
        simp only [plan, hrs, hout, Option.elim_none]
      refine h.advances hplan (fun _ => by simp) rfl (Or.inl rfl)
        (h.covers.keep rfl rfl fun _ hu => by cases hu) ?_
      have hafter : (Frame.run e .top : Frame N T V).credit d.kernel.shared = 0 := rfl
      have htop := Frame.rank_top_le d.kernel.shared ⟨[], d.script.output, d.script.drop⟩ (β d.turns) e
      have hrank : (Frame.run e (.poll t none) : Frame N T V).rank d.kernel.shared d.script
          (β d.turns) = 12 + 10 * (d.script.requests.length + d.script.drop.length) := rfl
      simp only [Iterate.Lower, cost, weight, hcredit, hafter, hrank, Script.wakes,
        List.countP_nil]
      omega
    | some v =>
      have hplan : plan β d (.run e (.poll t none)) =
          (.ready v, { d.script with requests := [] }, d.turns) := by
        simp only [plan, hrs, hout, Option.elim_some]
      have hptr := Shared.setTask_ptr_eq d.kernel.shared t
        (i := { d.kernel.shared.tasks t with slot := .finished }) rfl
      refine h.advances hplan (fun _ => by simp) rfl (Or.inl rfl)
        (h.covers.keep rfl hptr fun _ hu => hu) ?_
      have hafter : (Frame.run e (.storeResult t v) : Frame N T V).credit
          (d.kernel.shared.setTask t { d.kernel.shared.tasks t with slot := .finished }) =
          d.kernel.shared.links t := Nat.zero_add _
      have hsize : (d.kernel.shared.setTask t
          { d.kernel.shared.tasks t with slot := .finished }).size = d.kernel.shared.size := rfl
      simp only [Iterate.Lower, cost, weight, hcredit, hafter, hsize, Frame.rank, Script.wakes,
        List.countP_nil, Option.elim_none]
      omega

/-- In the destructor of a future. -/
theorem At.advances_drop {e : Fin N} {t : T} (h : At d (.run e (.dropInPlace t none)) S) :
    Advances β B d (.run e (.dropInPlace t none)) S := by
  cases hrs : Script.possible d.kernel.shared d.script.drop with
  | cons r rs =>
    obtain ⟨hr, hlen, hcount⟩ := Script.possible_cons hrs
    have hplan : plan β d (.run e (.dropInPlace t none)) =
        (.call r, { d.script with drop := rs }, d.turns) := by
      simp only [plan, hrs]
    refine h.advances_call rfl rfl hplan hr ?_ fun s' c => ?_
    · simp only [Script.wakes]
      omega
    · have hc := c.rank_le
      simp only [Frame.setCall, Frame.rank, Option.elim_some, Option.elim_none]
      omega
  | nil =>
    have hplan : plan β d (.run e (.dropInPlace t none)) =
        (.ret, { d.script with drop := [] }, d.turns) := by
      simp only [plan, hrs]
    have hptr := Shared.setTask_ptr_eq d.kernel.shared t
      (i := { d.kernel.shared.tasks t with slot := .dropped }) rfl
    refine h.advances hplan (fun _ => by simp) rfl (Or.inl rfl)
      (h.covers.keep rfl hptr fun _ hu => by cases hu) ?_
    have hbefore : (Frame.run e (.dropInPlace t none) : Frame N T V).credit d.kernel.shared = 1 :=
      rfl
    have hafter : (Frame.run e (.storeExited t) : Frame N T V).credit
        (d.kernel.shared.setTask t { d.kernel.shared.tasks t with slot := .dropped }) = 1 := rfl
    have hsize : (d.kernel.shared.setTask t
        { d.kernel.shared.tasks t with slot := .dropped }).size = d.kernel.shared.size := rfl
    simp only [Iterate.Lower, cost, weight, hbefore, hafter, hsize, Frame.rank, Script.wakes,
      List.countP_nil, Option.elim_none]
    omega

/-- At a `RunToken`. -/
theorem At.advances_enable {rt : Priority} (h : At d (.enable rt) S) :
    Advances β B d (.enable rt) S := by
  have hmem : rt ∈ d.kernel.shared.prioStack := by
    rw [h.inOrder.nested.mirror, h.frames]
    exact List.mem_cons_self
  have hlt : rt.value < N := h.inOrder.nested.lt rt hmem
  have hk : d.kernel.loopStep .tick =
      some ⟨d.kernel.shared, [.run ⟨rt.value, hlt⟩ .start, .base none]⟩ := by
    unfold Kernel.loopStep
    simp only [h.frames, hlt, dif_pos]
  have hn : Drain.next β d =
      some ⟨⟨d.kernel.shared, [.run ⟨rt.value, hlt⟩ .start, .base none]⟩, d.script, d.turns⟩ := by
    unfold Drain.next
    simp only [h.frames, plan, hk, Option.map_some]
  refine ⟨_, .run ⟨rt.value, hlt⟩ .start, S, hn,
    ⟨rfl, Or.inl rfl, h.covers.keep rfl rfl (fun _ hu => by cases hu), h.inOrder.loopStep hk⟩, ?_⟩
  have hbefore : (Frame.enable rt : Frame N T V).credit d.kernel.shared = 0 := rfl
  have hafter : (Frame.run ⟨rt.value, hlt⟩ .start : Frame N T V).credit d.kernel.shared = 0 := rfl
  simp only [Iterate.Lower, cost, weight, hbefore, hafter, Frame.rank]
  omega

theorem At.looping (h : At d f S) (hleft : ¬d.Left) : f.looping = true := by
  refine h.stays.resolve_right fun hf => hleft ?_
  rw [Left, h.frames, hf]

/-- The loop goes on until it is left. -/
theorem progress (hN : N ≤ 4096) (hB : ∀ n, ∑ i ∈ Finset.range n, (β i).wakes ≤ B)
    (h : At d f S) (hleft : ¬d.Left) : Advances β B d f S := by
  have hl : f.looping = true := h.looping hleft
  cases f with
  | enable rt => exact h.advances_enable
  | run e r =>
    cases r with
    | got t => exact h.advances_got hN hB
    | poll t c =>
      cases c with
      | none => exact h.advances_poll
      | some c => exact h.advances_tick hN rfl rfl (by simp [Frame.user]) (by simp) (by simp)
    | dropInPlace t c =>
      cases c with
      | none => exact h.advances_drop
      | some c => exact h.advances_tick hN rfl rfl (by simp [Frame.user]) (by simp) (by simp)
    | _ => exact h.advances_tick hN rfl rfl (by simp [Frame.user]) (by simp) (by simp)
  | tryPreempt => exact h.advances_tick hN rfl rfl (by simp [Frame.user]) (by simp) (by simp)
  | disable e => exact h.advances_tick hN rfl rfl (by simp [Frame.user]) (by simp) (by simp)
  | completeExecutor e =>
    exact h.advances_tick hN rfl rfl (by simp [Frame.user]) (by simp) (by simp)
  | _ => cases hl

/-! ### Where the loop is left -/

/-- A state of the loop is followed by a step of the hart, or enters `run`. -/
theorem next_some {d' : Drain N T V} (h : next β d = some d') :
    ∃ f fs, d.kernel.frames = f :: fs ∧
      ((∃ s' gs, Next d.kernel.shared f (plan β d f).1 s' gs ∧ d'.kernel = ⟨s', gs ++ fs⟩) ∨
        ∃ rt e, f = .enable rt ∧ d'.kernel = ⟨d.kernel.shared, .run e .start :: fs⟩) := by
  unfold Drain.next at h
  split at h
  · cases h
  · rename_i f fs hfr
    obtain ⟨k, hk, rfl⟩ := Option.map_eq_some_iff.mp h
    obtain ⟨f', fs', hfr', hcase⟩ := Kernel.loopStep_some hk
    rw [hfr] at hfr'
    obtain ⟨rfl, rfl⟩ := List.cons.inj hfr'
    rcases hcase with ⟨s', gs, hn, rfl⟩ | ⟨rt, hlt, rfl, rfl⟩
    · exact ⟨f, fs, hfr, Or.inl ⟨s', gs, hn, rfl⟩⟩
    · exact ⟨_, fs, hfr, Or.inr ⟨rt, _, rfl, rfl⟩⟩

theorem inOrder_next {d' : Drain N T V} (hin : d.kernel.InOrder) (h : next β d = some d') :
    d'.kernel.InOrder := by
  unfold Drain.next at h
  split at h
  · cases h
  · obtain ⟨k, hk, rfl⟩ := Option.map_eq_some_iff.mp h
    exact hin.loopStep hk

/-- The loop is left by a `try_preempt` that hands out no token. -/
theorem next_mret {s s' : Shared N T V} {ev : Event T V} {gs : List (Frame N T V)}
    (h : Next s f ev s' gs) (hl : f.looping = true) (hgs : gs = [.mret]) :
    f = .tryPreempt ∧ s' = s ∧ ((∃ p, s.Preempts p) → N ≤ s.prioStack.length) := by
  have hself : f ≠ .mret := fun hf => by
    rw [hf] at hl
    cases hl
  cases h with
  | noPreempt hfull => exact ⟨rfl, rfl, hfull⟩
  | call hu =>
    rcases Frame.looping_user hl hu with ⟨e, t, rfl⟩ | ⟨e, t, rfl⟩ <;> cases hgs
  | begin hu =>
    rcases Frame.looping_user hl hu with ⟨e, t, rfl⟩ | ⟨e, t, rfl⟩ <;> cases hgs
  | setMie => exact absurd (List.cons.inj hgs).1 hself
  | external => exact absurd (List.cons.inj hgs).1 hself
  | clear => cases hl
  | _ => cases hgs

/-- Nothing is ready where the loop is left. -/
theorem At.empty_of_left (h : At d f S) (hl : f.looping = true) {d' : Drain N T V}
    (hn : Drain.next β d = some d') (hleft : d'.Left) :
    d'.kernel.shared.bitmap.highest = some none := by
  obtain ⟨f', fs, hfr, ⟨s', gs, hnext, hd'⟩ | ⟨rt, e, -, hd'⟩⟩ := next_some hn
  · rw [h.frames] at hfr
    obtain ⟨rfl, rfl⟩ := List.cons.inj hfr
    have hgs : gs = [.mret] := by
      rw [Left, hd'] at hleft
      exact List.append_cancel_right hleft
    obtain ⟨rfl, rfl, hfull⟩ := next_mret hnext hl hgs
    have hstack : d.kernel.shared.prioStack = [] := by
      rw [h.inOrder.nested.mirror, h.frames]
      rfl
    rw [hd']
    rcases hhigh : d.kernel.shared.bitmap.highest with _ | _ | p
    · have hsome := PriorityBitmap.highest_isSome h.inOrder.bitmap.wf
      rw [hhigh] at hsome
      cases hsome
    · rfl
    · have hle := hfull ⟨p, hhigh, by simp [hstack]⟩
      have hlt := h.inOrder.bitmap.lt p
        (PriorityBitmap.highest_least h.inOrder.bitmap.wf hhigh).1
      rw [hstack, List.length_nil] at hle
      omega
  · rw [Left, hd'] at hleft
    cases hleft

/-- `run` goes on to the first task of its queue. -/
theorem next_got {s s' : Shared N T V} {gs : List (Frame N T V)} {e : Fin N} {t : T} {ts : List T}
    (h : Next s (.run e .top) .tick s' gs) (hq : s.queue e = t :: ts) :
    gs = [.run e (.got t)] := by
  cases h with
  | call hu => cases hu
  | dequeue hq' =>
    rw [hq] at hq'
    rw [(List.cons.inj hq').1]
  | drained hq' =>
    rw [hq] at hq'
    cases hq'

/-- A linked task stays linked until `run` has dequeued it. -/
theorem linked_until {d' : Drain N T V} {e : Fin N} {t : T} (hn : next β d = some d')
    (ht : t ∈ d.kernel.shared.queue e) :
    t ∈ d'.kernel.shared.queue e ∨ d'.kernel.frames.head? = some (.run e (.got t)) := by
  obtain ⟨f', fs, hfr, ⟨s', gs, hnext, hd'⟩ | ⟨rt, q, -, hd'⟩⟩ := next_some hn
  · rw [hd']
    rcases hnext.stays_linked ht with ht | ⟨-, rfl, ts, hq⟩
    · exact Or.inl ht
    · rw [next_got hnext hq]
      exact Or.inr rfl
  · rw [hd']
    exact Or.inl ht

/-- `run` polls the future of a task that it has dequeued, unless it is the
task of a future that has returned `Ready`. -/
theorem polls_got {d' : Drain N T V} {e : Fin N} {t : T} (hn : next β d = some d')
    (hgot : d.kernel.frames.head? = some (.run e (.got t))) :
    d'.kernel.frames.head? = some (.run e (.poll t none)) ∨
      (d.kernel.shared.tasks t).pollFn = some .pollExited := by
  obtain ⟨f', fs, hfr, hcase⟩ := next_some hn
  rw [hfr] at hgot
  obtain rfl := Option.some.inj hgot
  rcases hcase with ⟨s', gs, hnext, hd'⟩ | ⟨rt, q, hf, -⟩
  · rw [hd']
    -- the plan is to read `poll_fn`
    have hnext : Next d.kernel.shared (.run e (.got t)) .tick s' gs := hnext
    cases hnext with
    | call hu => cases hu
    | gotPoll => exact Or.inl rfl
    | gotExited hfn => exact Or.inr hfn
  · cases hf

/-! ### The loop from its start -/

/-- `try_preempt` hands out a token for the highest ready executor. -/
theorem selects {s s' : Shared N T V} {rt : Priority} {fs : List (Frame N T V)}
    (hin : Kernel.InOrder ⟨s, .tryPreempt :: fs⟩) (h : s.tryPreempt = some (s', some rt)) :
    (∃ hlt : rt.value < N, s.queue ⟨rt.value, hlt⟩ ≠ []) ∧ ∀ e, s.queue e ≠ [] → rt.value ≤ e := by
  rcases Shared.tryPreempt_some h with ⟨p, hp, -, hrt, -⟩ | ⟨hnone, -, -⟩
  · obtain rfl := Option.some.inj hrt
    obtain ⟨hmem, hleast⟩ := PriorityBitmap.highest_least hin.bitmap.wf hp.1
    have hlt : p < N := hin.bitmap.lt p hmem
    exact ⟨⟨hlt, hin.coherent.preempts hin.nested hin.bitmap (e := ⟨p, hlt⟩) hp⟩,
      fun e he => hleast e (hin.coherent.set e he)⟩
  · cases hnone

end Drain

namespace Kernel

/-- Finitely many tasks have a back-pointer. -/
theorem finite_ptr {k : Kernel N T V} (h : Reachable k) :
    ∃ S : Finset T, ∀ t, k.shared.ptr t ≠ none → t ∈ S := by
  refine h.invariant (I := fun k => ∃ S : Finset T, ∀ t, k.shared.ptr t ≠ none → t ∈ S) ?_
    ⟨∅, fun t ht => absurd rfl ht⟩
  intro k ev k' ⟨S, hS⟩ hstep
  obtain ⟨f, fs, s', gs, -, rfl, hnext⟩ := step_next hstep
  -- a step gives a back-pointer to the task whose push it was
  refine ⟨S ∪ (f.push.map Prod.fst).toFinset, fun t ht => ?_⟩
  obtain ⟨e, he⟩ := Option.ne_none_iff_exists'.mp ht
  rcases hnext.ptr_some he with hp | hf
  · exact Finset.mem_union_left _ (hS t (by simp [hp]))
  · exact Finset.mem_union_right _ (by simp [hf])

end Kernel

namespace Drain

theorem start_at {s : Shared N T V} (hs : Kernel.Reachable ⟨s, [.base none]⟩) :
    ∃ S, At (start s) .tryPreempt S := by
  obtain ⟨S, hS⟩ := Kernel.finite_ptr hs
  refine ⟨S ∪ Finset.univ.biUnion fun e => (s.queue e).toFinset, rfl, Or.inl rfl,
    ⟨fun t ht => Finset.mem_union_left _ (hS t ht), fun e t ht => ?_, fun t ht => by cases ht⟩,
    (Kernel.InOrder.of_reachable hs).enter⟩
  refine Finset.mem_union_right _ (Finset.mem_biUnion.mpr ⟨e, Finset.mem_univ e, ?_⟩)
  exact List.mem_toFinset.mpr ht

/-- **The drain loop ends and leaves nothing ready.** `main` has spawned tasks
as it likes, and enters the loop with interrupts off. If the futures make
finitely many wakes and spawns in all, the loop is left after finitely many
steps, none of which panics; then every run queue, the bitmap and the priority
stack are empty. Whenever `try_preempt` hands out a token, that executor is
ready and no executor of a higher priority is. And a task that is in a run queue
at some point of the loop is dequeued later in the loop, and its future polled,
unless it has returned `Ready` before. -/
theorem drains (hN : N ≤ 4096) {s : Shared N T V} (hs : Kernel.Reachable ⟨s, [.base none]⟩)
    (β : ℕ → Script T V) (hfin : ∃ B, ∀ n, ∑ i ∈ Finset.range n, (β i).wakes ≤ B) :
    ∃ n d, Iterate.after (next β) n (start s) = some d ∧ d.Left ∧
      (∀ e, d.kernel.shared.queue e = []) ∧ d.kernel.shared.bitmap.isEmpty = true ∧
      (∀ p, ¬d.kernel.shared.bitmap.Mem p) ∧ d.kernel.shared.prioStack = [] ∧
      (∀ i d' s' rt, Iterate.after (next β) i (start s) = some d' →
        d'.kernel.frames.head? = some .tryPreempt →
        d'.kernel.shared.tryPreempt = some (s', some rt) →
        (∃ hlt : rt.value < N, d'.kernel.shared.queue ⟨rt.value, hlt⟩ ≠ []) ∧
          ∀ e, d'.kernel.shared.queue e ≠ [] → rt.value ≤ e) ∧
      (∀ i d' e t, i ≤ n → Iterate.after (next β) i (start s) = some d' →
        t ∈ d'.kernel.shared.queue e → ∃ j d₁ d₂, i ≤ j ∧ j < n ∧
          Iterate.after (next β) j (start s) = some d₁ ∧ next β d₁ = some d₂ ∧
          d₁.kernel.frames.head? = some (.run e (.got t)) ∧
          (d₂.kernel.frames.head? = some (.run e (.poll t none)) ∨
            (d₁.kernel.shared.tasks t).pollFn = some .pollExited)) := by
  obtain ⟨B, hB⟩ := hfin
  obtain ⟨S, hstart⟩ := start_at hs
  -- nothing is ready where the loop is left
  let I : Drain N T V → ℕ × ℕ → Prop := fun d m => ∃ f S, At d f S ∧ m = cost β B d f S ∧
    (d.Left → d.kernel.shared.bitmap.highest = some none)
  have hstep : ∀ d m, I d m → ¬d.Left →
      ∃ d' m', next β d = some d' ∧ I d' m' ∧ Iterate.Lower m' m := by
    rintro d m ⟨f, S, hat, rfl, -⟩ hleft
    obtain ⟨d', f', S', hn, hat', hlow⟩ := progress hN hB hat hleft
    have hl : f.looping = true := hat.looping hleft
    exact ⟨d', _, hn, ⟨f', S', hat', rfl, fun hleft' => hat.empty_of_left hl hn hleft'⟩, hlow⟩
  obtain ⟨n, d, -, hn, ⟨f, S', hat, -, hhigh⟩, hleft⟩ :=
    Iterate.exists_final Iterate.wellFounded_lower hstep (s := start s)
      ⟨_, S, hstart, rfl, fun h => by cases h⟩
  have hin : ∀ i d', Iterate.after (next β) i (start s) = some d' → d'.kernel.InOrder :=
    fun i d' hi => Iterate.after_invariant (I := fun d : Drain N T V => d.kernel.InOrder)
      (fun _ _ => inOrder_next) hstart.inOrder hi
  have hnone : ∀ p, ¬d.kernel.shared.bitmap.Mem p :=
    PriorityBitmap.highest_eq_none hat.inOrder.bitmap.wf (hhigh hleft)
  have hempty : ∀ e, d.kernel.shared.queue e = [] := fun e => by
    by_contra hne
    exact hnone e (hat.inOrder.coherent.set e hne)
  refine ⟨n, d, hn, hleft, hempty, ?_, hnone, ?_, fun i d' s' rt hi hfr hpre => ?_,
    fun i d' e t hi hd' ht => ?_⟩
  · exact PriorityBitmap.isEmpty_of_highest (hhigh hleft)
  · rw [hat.inOrder.nested.mirror, hleft]
    rfl
  · have hd' := hin i d' hi
    obtain ⟨fs, hfs⟩ := List.head?_eq_some_iff.mp hfr
    have hd' : Kernel.InOrder ⟨d'.kernel.shared, .tryPreempt :: fs⟩ := by
      rw [← hfs]
      exact hd'
    exact selects hd' hpre
  · have hrest := Iterate.after_sub hi hd' hn
    obtain ⟨j, d₁, hj, hd₁, hgot⟩ := Iterate.exists_between
      (P := fun d : Drain N T V => t ∈ d.kernel.shared.queue e)
      (fun _ _ => linked_until) hrest ht (by simp [hempty])
    have hij : Iterate.after (next β) (i + j) (start s) = some d₁ := by
      rw [Iterate.after_add, hd', Option.bind_some, hd₁]
    -- it is not where the loop is left
    have hne : i + j ≠ n := fun hjn => by
      rw [hjn, hn] at hij
      rw [← Option.some.inj hij, hleft] at hgot
      cases hgot
    have hlt : i + j < n := by omega
    obtain ⟨d₂, hd₂⟩ := Iterate.next_of_lt hlt hij hn
    exact ⟨i + j, d₁, d₂, Nat.le_add_right i j, hlt, hij, hd₂, hgot, polls_got hd₂ hgot⟩

/-- The first task to be polled wakes itself and the other one. -/
def wakesBoth : ℕ → Script Bool Unit
  | 0 => ⟨[.wake true, .wake false], some (), []⟩
  | _ => ⟨[], some (), []⟩

theorem wakesBoth_finite (n : ℕ) : ∑ i ∈ Finset.range n, (wakesBoth i).wakes ≤ 2 := by
  cases n with
  | zero => exact Nat.zero_le 2
  | succ n =>
    have hrest : ∑ i ∈ Finset.range n, (wakesBoth (i + 1)).wakes = 0 :=
      Finset.sum_eq_zero fun i _ => rfl
    rw [Finset.sum_range_succ', hrest]
    decide

/-- A task at each of two priorities. -/
theorem drains_two : ∃ s : Shared 2 Bool Unit, s.queue 0 = [true] ∧ s.queue 1 = [false] ∧
    ∃ n d, Iterate.after (next wakesBoth) n (start s) = some d ∧ d.Left ∧
      ∀ e, d.kernel.shared.queue e = [] := by
  obtain ⟨⟨s, frames⟩, hk, hobs⟩ := Kernel.reachable_of_exec
    (fun k : Kernel 2 Bool Unit => (k.frames, k.shared.queue 0, k.shared.queue 1))
    (Event.spawnTask ⟨1⟩ false ++ Event.spawnTask ⟨0⟩ true)
    (a := ([.base none], [true], [false])) (by decide +kernel)
  obtain ⟨hframes, hq⟩ := Prod.mk.inj hobs
  obtain ⟨hq0, hq1⟩ := Prod.mk.inj hq
  have hframes : frames = [.base none] := hframes
  subst hframes
  obtain ⟨n, d, hn, hleft, hempty, -⟩ := drains (by decide) hk wakesBoth ⟨2, wakesBoth_finite⟩
  exact ⟨s, hq0, hq1, n, d, hn, hleft, hempty⟩

end Drain
end RtAsync

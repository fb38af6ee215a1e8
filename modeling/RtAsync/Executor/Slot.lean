/-
# The future in a task storage

`UninitCell` holds one future after another. Beside the hart, every access to
the slot of a task is kept: `write_in_place`, the polls, the poll that returned
`Ready`, `drop_in_place`. They are lawful if a future is polled only while it
is written and has not returned `Ready`, and dropped once, after that and
before the next is written.

Nothing in the storage says which activation works on it. `Frame.work` does:
`TaskStorage::spawn` past its `fetch_or`, and `TaskStorage::poll`. While the
accesses are lawful, one activation at most works on a task, and `SPAWNED`,
`poll_fn` and the slot are what its statement makes of them (`Cell.Phase`).
An executor enters `TaskStorage::poll` where it reads `poll_fn`; that is the
one step that looks at none of this. It goes wrong only where the executor has
dequeued a link of an earlier incarnation.

Key definitions: `SlotOp`, `Slot.next`, `Lawful`, `Stage`, `Cell.Phase`,
`SlotHistory`, `SlotHistory.Sound`, `SlotHistory.PollOk`.
Key theorems: `Lawful.dropped_once`, `Next.workEffect`,
`SlotHistory.Inv.next`, `SlotHistory.slot_sound_iff`,
`SlotHistory.polled_twice`.
-/
import RtAsync.Executor.Incarnation

namespace RtAsync

open Function (update update_self update_of_ne update_eq_self)
open Transition (Along Always along_of_along always_iff_along exec exec_append)

variable {N : ℕ} {T V : Type}

/-! ### The life of a future -/

/-- An access to the slot: `write_in_place`, a poll, the poll that returned
`Ready`, `drop_in_place`. -/
inductive SlotOp
  | write
  | poll
  | ready
  | drop
  deriving DecidableEq, Repr

/-- The slot after an access that it allows. -/
def Slot.next : Slot → SlotOp → Option Slot
  | .uninit, .write => some .live
  | .dropped, .write => some .live
  | .live, .poll => some .live
  | .live, .ready => some .finished
  | .finished, .drop => some .dropped
  | _, _ => none

/-- Every access of the log is one that the slot allows. -/
def Lawful (log : List SlotOp) : Prop := (exec Slot.next .uninit log).isSome

/-- Between a write and the next: polls, the one that returned `Ready`, and
one drop. -/
def DroppedOnce (log : List SlotOp) : Prop :=
  ∀ xs ys zs, log = xs ++ .write :: (ys ++ .write :: zs) → .write ∉ ys →
    ∃ n, ys = List.replicate n .poll ++ [.ready, .drop]

theorem drop_of_exec : ∀ {ys : List SlotOp}, .write ∉ ys →
    exec Slot.next .finished ys = some .dropped → ys = [.drop]
  | [], _, h => by simp [exec] at h
  | [.drop], _, _ => rfl
  | .drop :: .write :: _, hno, _ => by simp at hno
  | .drop :: .poll :: _, _, h => by simp [exec, Slot.next] at h
  | .drop :: .ready :: _, _, h => by simp [exec, Slot.next] at h
  | .drop :: .drop :: _, _, h => by simp [exec, Slot.next] at h
  | .write :: _, hno, _ => by simp at hno
  | .poll :: _, _, h => by simp [exec, Slot.next] at h
  | .ready :: _, _, h => by simp [exec, Slot.next] at h

theorem life_of_exec : ∀ {ys : List SlotOp}, .write ∉ ys → exec Slot.next .live ys = some .dropped →
    ∃ n, ys = List.replicate n .poll ++ [.ready, .drop]
  | [], _, h => by simp [exec] at h
  | .poll :: ys, hno, h => by
    obtain ⟨n, hn⟩ := life_of_exec (fun hm => hno (List.mem_cons_of_mem _ hm)) h
    exact ⟨n + 1, by rw [hn, List.replicate_succ, List.cons_append]⟩
  | .ready :: ys, hno, h => by
    have hdrop : ys = [.drop] := drop_of_exec (fun hm => hno (List.mem_cons_of_mem _ hm)) h
    exact ⟨0, by rw [hdrop]; rfl⟩
  | .write :: _, hno, _ => by simp at hno
  | .drop :: _, _, h => by simp [exec, Slot.next] at h

/-- A write leaves the future to be polled. -/
theorem Slot.next_write {s s' : Slot} (h : s.next .write = some s') :
    (s = .uninit ∨ s = .dropped) ∧ s' = .live := by
  cases s <;> simp_all [Slot.next]

theorem exec_live_ne_uninit : ∀ {ys : List SlotOp} {s s' : Slot}, s ≠ .uninit →
    exec Slot.next s ys = some s' → s' ≠ .uninit
  | [], s, s', hs, h => by
    simp only [exec, Option.some.injEq] at h
    exact h ▸ hs
  | op :: ys, s, s', hs, h => by
    obtain ⟨s₁, h₁, h⟩ := Option.bind_eq_some_iff.mp h
    refine exec_live_ne_uninit ?_ h
    cases s <;> cases op <;> simp_all [Slot.next] <;> (rw [← h₁]; decide)

theorem Lawful.dropped_once {log : List SlotOp} (h : Lawful log) : DroppedOnce log := by
  rintro xs ys zs rfl hno
  obtain ⟨s, hs⟩ := Option.isSome_iff_exists.mp h
  rw [exec_append] at hs
  obtain ⟨s₀, -, hs⟩ := Option.bind_eq_some_iff.mp hs
  obtain ⟨s₁, hw, hs⟩ := Option.bind_eq_some_iff.mp hs
  obtain ⟨-, rfl⟩ := Slot.next_write hw
  rw [exec_append] at hs
  obtain ⟨s₂, hys, hs⟩ := Option.bind_eq_some_iff.mp hs
  obtain ⟨s₃, hw', -⟩ := Option.bind_eq_some_iff.mp hs
  rcases (Slot.next_write hw').1 with rfl | rfl
  · exact absurd rfl (exec_live_ne_uninit (by decide) hys)
  · exact life_of_exec hno hys

/-! ### Who works on a task -/

/-- Where `TaskStorage::spawn` stands past its `fetch_or`, or
`TaskStorage::poll`. -/
inductive Stage
  | result
  | waker
  | fn
  | write
  | poll
  | storeResult
  | storeNull
  | dropInPlace
  | storeExited
  | notify
  deriving DecidableEq, Repr

def Call.stage : Call N T → Option (T × Stage)
  | .storageResult t => some (t, .result)
  | .storageWaker t => some (t, .waker)
  | .storageFn t => some (t, .fn)
  | .storageWrite t => some (t, .write)
  | _ => none

def RunPc.stage : RunPc N T V → Option (T × Stage)
  | .poll t _ => some (t, .poll)
  | .storeResult t _ => some (t, .storeResult)
  | .storeNull t => some (t, .storeNull)
  | .dropInPlace t _ => some (t, .dropInPlace)
  | .storeExited t => some (t, .storeExited)
  | .notify t => some (t, .notify)
  | _ => none

namespace Frame

/-- The task whose `TaskStorage::poll` the activation is inside. -/
def polls : Frame N T V → List (T × Stage)
  | run _ r => r.stage.toList
  | _ => []

/-- The tasks that an activation works on: user code inside the poll of one can
be inside the `TaskStorage::spawn` of another. -/
def work (f : Frame N T V) : List (T × Stage) := f.polls ++ (f.calling.bind Call.stage).toList

theorem setCall_polls (f : Frame N T V) (c : Option (Call N T)) :
    (f.setCall c).polls = f.polls := by
  unfold setCall
  split <;> rfl

theorem work_user {f : Frame N T V} {c : Option (Call N T)} (h : f.user = some c) :
    f.work = f.polls ++ (c.bind Call.stage).toList := by
  rw [work, calling_eq h]

theorem work_setCall {f : Frame N T V} {c : Option (Call N T)} (h : f.user = some c)
    (c' : Option (Call N T)) : (f.setCall c').work = f.polls ++ (c'.bind Call.stage).toList := by
  rw [work, setCall_polls, setCall_calling h]

theorem within_of_mem_polls {f : Frame N T V} {t : T} {st : Stage} (h : (t, st) ∈ f.polls) :
    f.within = some t := by
  cases f with
  | run e r =>
    have hr : r.stage = some (t, st) := Option.mem_toList.mp h
    cases r with
    | got u => cases hr
    | start => cases hr
    | top => cases hr
    | _ =>
      obtain ⟨rfl, -⟩ := Prod.mk.inj (Option.some.inj hr)
      rfl
  | _ => cases h

theorem mem_polls_of_within {f : Frame N T V} {t : T} (h : f.within = some t) :
    ∃ st, (t, st) ∈ f.polls := by
  cases f with
  | run e r =>
    cases r with
    | got u => cases h
    | start => cases h
    | top => cases h
    | _ =>
      obtain rfl := Option.some.inj h
      exact ⟨_, List.mem_cons_self⟩
  | _ => cases h

end Frame

/-- The statements at which activations work on `t`. -/
def stagesOf [DecidableEq T] (t : T) (l : List (T × Stage)) : List Stage :=
  l.filterMap fun p => if p.1 = t then some p.2 else none

section StagesOf

variable [DecidableEq T]

theorem stagesOf_append (t : T) (l l' : List (T × Stage)) :
    stagesOf t (l ++ l') = stagesOf t l ++ stagesOf t l' :=
  List.filterMap_append

theorem stagesOf_self (t : T) (st : Stage) : stagesOf t [(t, st)] = [st] :=
  List.filterMap_cons_some (if_pos rfl)

theorem stagesOf_ne {t u : T} (h : t ≠ u) (l : List Stage) :
    stagesOf t (l.map fun st => (u, st)) = [] := by
  refine List.filterMap_eq_nil_iff.mpr fun p hp => ?_
  obtain ⟨st, -, rfl⟩ := List.mem_map.mp hp
  exact if_neg (Ne.symm h)

theorem stagesOf_single_ne {t u : T} (h : t ≠ u) (st : Stage) : stagesOf t [(u, st)] = [] :=
  stagesOf_ne h [st]

theorem stagesOf_map (t : T) (l : List Stage) : stagesOf t (l.map fun st => (t, st)) = l := by
  induction l with
  | nil => rfl
  | cons st l ih =>
    rw [List.map_cons]
    show stagesOf t ([(t, st)] ++ l.map fun st => (t, st)) = st :: l
    rw [stagesOf_append, stagesOf_self, ih]
    rfl

theorem mem_stagesOf {t : T} {l : List (T × Stage)} {st : Stage} :
    st ∈ stagesOf t l ↔ (t, st) ∈ l := by
  rw [stagesOf, List.mem_filterMap]
  constructor
  · rintro ⟨⟨u, st'⟩, hp, h⟩
    obtain ⟨hu, h⟩ := Option.ite_none_right_eq_some.mp h
    obtain rfl := Option.some.inj h
    exact hu ▸ hp
  · exact fun h => ⟨(t, st), h, if_pos rfl⟩

end StagesOf

/-! ### `SPAWNED`, `poll_fn` and the slot -/

structure Cell where
  spawned : Bool
  pollFn : Option PollFn
  slot : Slot
  deriving DecidableEq

def TaskInfo.cell (i : TaskInfo N T V) : Cell := ⟨i.state.spawned, i.pollFn, i.slot⟩

def Shared.cell (s : Shared N T V) (t : T) : Cell := (s.tasks t).cell

/-- There is no future in the slot. -/
def Cell.Vacant (c : Cell) : Prop := c.slot = .uninit ∨ c.slot = .dropped

/-- What the storage holds while an activation is at this statement. -/
def Stage.Ok (c : Cell) : Stage → Prop
  | .result => c.Vacant ∧ c.pollFn ≠ some .poll
  | .waker => c.Vacant ∧ c.pollFn ≠ some .poll
  | .fn => c.Vacant ∧ c.pollFn ≠ some .poll
  | .write => c.Vacant ∧ c.pollFn = some .poll
  | .poll => c.slot = .live ∧ c.pollFn = some .poll
  | .storeResult => c.slot = .finished ∧ c.pollFn = some .poll
  | .storeNull => c.slot = .finished ∧ c.pollFn = some .poll
  | .dropInPlace => c.slot = .finished ∧ c.pollFn = some .poll
  | .storeExited => c.slot = .dropped ∧ c.pollFn = some .poll
  | .notify => c.slot = .dropped ∧ c.pollFn ≠ some .poll

/-- Nobody works on the storage, which can be spawned or waits to be polled, or
one activation does. -/
inductive Cell.Phase (c : Cell) : List Stage → Prop
  | free : c.spawned = false → c.Vacant → c.pollFn ≠ some .poll → Phase c []
  | waiting : c.spawned = true → c.slot = .live → c.pollFn = some .poll → Phase c []
  | busy (st : Stage) : c.spawned = true → st.Ok c → Phase c [st]

/-- A statement of `TaskStorage::spawn` or `TaskStorage::poll`: where it goes
on, and the access to the slot it makes. -/
inductive Stage.Next (c : Cell) : Stage → Cell → Option Stage → Option SlotOp → Prop
  | result : Stage.Next c .result c (some .waker) none
  | waker : Stage.Next c .waker c (some .fn) none
  | fn : Stage.Next c .fn { c with pollFn := some .poll } (some .write) none
  | write : Stage.Next c .write { c with slot := .live } none (some .write)
  | pending : Stage.Next c .poll c none none
  | ready : Stage.Next c .poll { c with slot := .finished } (some .storeResult) (some .ready)
  | storeResult : Stage.Next c .storeResult c (some .storeNull) none
  | storeNull : Stage.Next c .storeNull c (some .dropInPlace) none
  | dropInPlace : Stage.Next c .dropInPlace { c with slot := .dropped } (some .storeExited)
      (some .drop)
  | storeExited : Stage.Next c .storeExited { c with pollFn := some .pollExited } (some .notify) none
  | notify : Stage.Next c .notify { c with spawned := false } none none

/-- The one activation that works on the storage goes on: the phase is kept,
and the slot allows the access. -/
theorem Cell.Phase.move {c c' : Cell} {st : Stage} {st' : Option Stage} {op : Option SlotOp}
    (h : c.Phase [st]) (hn : Stage.Next c st c' st' op) :
    c'.Phase st'.toList ∧ exec Slot.next c.slot op.toList = some c'.slot := by
  obtain ⟨hsp, hok⟩ : c.spawned = true ∧ st.Ok c := by
    cases h with
    | busy _ hsp hok => exact ⟨hsp, hok⟩
  cases hn with
  | result => exact ⟨.busy _ hsp hok, rfl⟩
  | waker => exact ⟨.busy _ hsp hok, rfl⟩
  | fn => exact ⟨.busy _ hsp ⟨hok.1, rfl⟩, rfl⟩
  | write =>
    refine ⟨.waiting hsp rfl hok.2, ?_⟩
    rcases hok.1 with hslot | hslot
    · rw [hslot]
      rfl
    · rw [hslot]
      rfl
  | pending => exact ⟨.waiting hsp hok.1 hok.2, rfl⟩
  | ready =>
    refine ⟨.busy _ hsp ⟨rfl, hok.2⟩, ?_⟩
    rw [hok.1]
    rfl
  | storeResult => exact ⟨.busy _ hsp hok, rfl⟩
  | storeNull => exact ⟨.busy _ hsp hok, rfl⟩
  | dropInPlace =>
    refine ⟨.busy _ hsp ⟨rfl, hok.2⟩, ?_⟩
    rw [hok.1]
    rfl
  | storeExited => exact ⟨.busy _ hsp ⟨hok.1, by simp⟩, rfl⟩
  | notify => exact ⟨.free rfl (Or.inr hok.1) hok.2, rfl⟩

/-! ### What a step does to them -/

variable [DecidableEq T]

theorem Shared.setTask_cell (s : Shared N T V) (u : T) (i : TaskInfo N T V) :
    (s.setTask u i).cell = update s.cell u i.cell := by
  funext t
  by_cases htu : t = u
  · subst htu
    rw [update_self, cell, Shared.setTask_self]
  · rw [update_of_ne htu, cell, cell, show (s.setTask u i).tasks = update s.tasks u i from rfl,
      update_of_ne htu]

theorem Shared.setTask_cell_eq (s : Shared N T V) (u : T) {i : TaskInfo N T V}
    (h : i.cell = (s.tasks u).cell) : (s.setTask u i).cell = s.cell := by
  rw [s.setTask_cell u i, h]
  exact update_eq_self u s.cell

theorem Shared.runEnqueue_cell (s : Shared N T V) (u : T) : (s.runEnqueue u).1.cell = s.cell :=
  s.setTask_cell_eq u rfl

theorem Shared.pushed_cell (s : Shared N T V) (e : Fin N) (u : T) (bm : PriorityBitmap 64) :
    (s.pushed e u bm).cell = s.cell :=
  s.setTask_cell_eq u (i := { s.tasks u with executorPtr := some e }) rfl

theorem Shared.wakeLocked_cell {s s' : Shared N T V} {w : T} (h : s.wakeLocked w = some s') :
    s'.cell = s.cell := by
  rcases Shared.wakeLocked_some h with ⟨-, rfl⟩ | ⟨e, -, ⟨-, rfl⟩ | ⟨-, bm, -, rfl⟩⟩
  · rfl
  · exact s.runEnqueue_cell w
  · exact (Shared.pushed_cell _ e w bm).trans (s.runEnqueue_cell w)

theorem Shared.notifyLocked_cell {s s' : Shared N T V} {u : T} (h : s.notifyLocked u = some s') :
    s'.cell = update s.cell u { s.cell u with spawned := false } := by
  have hd : (s.despawned u).cell = update s.cell u { s.cell u with spawned := false } :=
    s.setTask_cell u _
  rcases Shared.notifyLocked_some h with ⟨-, rfl⟩ | ⟨w, -, hw⟩
  · exact hd
  · exact (Shared.wakeLocked_cell hw).trans hd

/-- The access to a slot that a step makes. -/
def Shared.slotOp (s : Shared N T V) (f : Frame N T V) : Event T V → Option (T × SlotOp)
  | .tick => match f.calling with
    | some (.storageWrite t) => some (t, .write)
    | _ => match f with
      | .run _ (.got t) => if (s.tasks t).pollFn = some .poll then some (t, .poll) else none
      | _ => none
  | .ready _ => match f with
    | .run _ (.poll t none) => some (t, .ready)
    | _ => none
  | .ret => match f with
    | .run _ (.dropInPlace t none) => some (t, .drop)
    | _ => none
  | _ => none

/-- What a step does to the storages, to who works on them and to the slots:
nothing, `TaskStorage::spawn` sets `SPAWNED`, an executor enters
`TaskStorage::poll`, or an activation goes on with its work. -/
inductive WorkEffect (s : Shared N T V) (f : Frame N T V) (ev : Event T V) (s' : Shared N T V)
    (gs : List (Frame N T V)) : Prop
  | keep : gs.flatMap Frame.work = f.work → s'.cell = s.cell → s.slotOp f ev = none →
      WorkEffect s f ev s' gs
  | begin (t : T) : gs.flatMap Frame.work = f.work ++ [(t, .result)] → (s.cell t).spawned = false →
      s'.cell = update s.cell t { s.cell t with spawned := true } → s.slotOp f ev = none →
      WorkEffect s f ev s' gs
  | enter (e : Fin N) (t : T) : ev = .tick → f = .run e (.got t) → (s.cell t).pollFn = some .poll →
      gs = [.run e (.poll t none)] → s'.cell = s.cell → s.slotOp f ev = some (t, .poll) →
      WorkEffect s f ev s' gs
  | move (t : T) (st : Stage) (st' : Option Stage) (op : Option SlotOp) (l : List (T × Stage)) :
      f.work = l ++ [(t, st)] → gs.flatMap Frame.work = l ++ st'.toList.map (fun x => (t, x)) →
      Stage.Next (s.cell t) st (s'.cell t) st' op → s'.cell = update s.cell t (s'.cell t) →
      s.slotOp f ev = op.map (fun o => (t, o)) → ev = .tick ∨ st = .poll ∨ st = .dropInPlace →
      WorkEffect s f ev s' gs

/-- An access that is none of `TaskStorage::spawn`. -/
theorem WorkEffect.of_call {s s' : Shared N T V} {f : Frame N T V} {c : Call N T}
    {c' : Option (Call N T)} (hu : f.user = some (some c)) (hc : c.stage = none)
    (hc' : c'.bind Call.stage = none) (hcell : s'.cell = s.cell) :
    WorkEffect s f .tick s' [f.setCall c'] := by
  refine .keep ?_ hcell ?_
  · rw [List.flatMap_singleton, Frame.work_setCall hu, Frame.work_user hu, Option.bind_some, hc, hc']
  · have hcall := Frame.calling_eq hu
    unfold Shared.slotOp
    rw [hcall]
    cases c with
    | storageWrite => cases hc
    | _ => rcases Frame.user_cases hu with rfl | rfl | rfl | ⟨q, t, rfl⟩ | ⟨q, t, rfl⟩ <;> rfl

/-- An access of `TaskStorage::spawn`. -/
theorem WorkEffect.of_storage {s : Shared N T V} {f : Frame N T V} {c : Call N T} {t : T}
    {st : Stage} {c' : Option (Call N T)} {st' : Option Stage} {op : Option SlotOp}
    {s' : Shared N T V} {i : TaskInfo N T V} (hu : f.user = some (some c))
    (hc : c.stage = some (t, st)) (hc' : c'.bind Call.stage = st'.map fun x => (t, x))
    (hs' : s'.cell = (s.setTask t i).cell) (hn : Stage.Next (s.cell t) st i.cell st' op)
    (hop : op = none ∧ st ≠ .write ∨ op = some .write ∧ c = .storageWrite t) :
    WorkEffect s f .tick s' [f.setCall c'] := by
  have hcell : s'.cell = update s.cell t i.cell := by rw [hs', s.setTask_cell t i]
  have hcellt : s'.cell t = i.cell := by rw [hcell, update_self]
  refine .move t st st' op f.polls ?_ ?_ (by rw [hcellt]; exact hn) (by rw [hcellt, hcell]) ?_
    (Or.inl rfl)
  · rw [Frame.work_user hu, Option.bind_some, hc]
    rfl
  · rw [List.flatMap_singleton, Frame.work_setCall hu, hc']
    cases st' <;> rfl
  · have hcall := Frame.calling_eq hu
    unfold Shared.slotOp
    rw [hcall]
    rcases hop with ⟨rfl, hne⟩ | ⟨rfl, rfl⟩
    · cases c with
      | storageWrite u =>
        obtain ⟨-, rfl⟩ := Prod.mk.inj (Option.some.inj hc)
        exact absurd rfl hne
      | _ => rcases Frame.user_cases hu with rfl | rfl | rfl | ⟨q, t, rfl⟩ | ⟨q, t, rfl⟩ <;> rfl
    · rfl

theorem callStep_workEffect {s s' : Shared N T V} {f : Frame N T V} {c : Call N T}
    {c' : Option (Call N T)} (hu : f.user = some (some c)) (h : callStep s c = some (s', c')) :
    WorkEffect s f .tick s' [f.setCall c'] := by
  cases callStep_next h with
  | @wakeSkip t => exact .of_call hu rfl rfl (s.runEnqueue_cell t)
  | @wakeFlag t => exact .of_call hu rfl rfl (s.runEnqueue_cell t)
  | @spawnSkip t => exact .of_call hu rfl rfl (s.runEnqueue_cell t)
  | @spawnFlag t => exact .of_call hu rfl rfl (s.runEnqueue_cell t)
  | @wakePush t e bm => exact .of_call hu rfl rfl (s.pushed_cell e t bm)
  | @spawnPush t e bm => exact .of_call hu rfl rfl (s.pushed_cell e t bm)
  | @storageBusy t hsp =>
    refine .of_call hu rfl rfl (s.setTask_cell_eq t ?_)
    rw [TaskInfo.cell, TaskInfo.cell, hsp]
    rfl
  | @storageFlag t hsp =>
    refine .begin t ?_ hsp (s.setTask_cell t _) ?_
    · rw [List.flatMap_singleton, Frame.work_setCall hu, Frame.work_user hu]
      simp [Call.stage]
    · have hcall := Frame.calling_eq hu
      unfold Shared.slotOp
      rw [hcall]
      rcases Frame.user_cases hu with rfl | rfl | rfl | ⟨q, t, rfl⟩ | ⟨q, t, rfl⟩ <;> rfl
  | storageResult t => exact .of_storage hu rfl rfl rfl .result (Or.inl ⟨rfl, by decide⟩)
  | storageWaker t => exact .of_storage hu rfl rfl rfl .waker (Or.inl ⟨rfl, by decide⟩)
  | storageFn t => exact .of_storage hu rfl rfl rfl .fn (Or.inl ⟨rfl, by decide⟩)
  | storageWrite t => exact .of_storage hu rfl rfl rfl .write (Or.inr ⟨rfl, rfl⟩)
  | joinTake => exact .of_call hu rfl rfl (s.setTask_cell_eq _ rfl)
  | joinStore t w => exact .of_call hu rfl rfl (s.setTask_cell_eq t rfl)
  | _ => exact .of_call hu rfl rfl rfl

/-- A statement of `TaskStorage::poll`. -/
theorem WorkEffect.of_run {s s' : Shared N T V} {e : Fin N} {r r' : RunPc N T V} {ev : Event T V}
    {t : T} {st : Stage} {st' : Option Stage} {op : Option SlotOp} {c : Cell}
    (hr : (Frame.run e r).work = [(t, st)])
    (hr' : (Frame.run e r').work = st'.toList.map fun x => (t, x))
    (hcell : s'.cell = update s.cell t c) (hn : Stage.Next (s.cell t) st c st' op)
    (hop : s.slotOp (.run e r) ev = op.map fun o => (t, o))
    (hev : ev = .tick ∨ st = .poll ∨ st = .dropInPlace) :
    WorkEffect s (.run e r) ev s' [.run e r'] := by
  have hcellt : s'.cell t = c := by rw [hcell, update_self]
  refine .move t st st' op [] hr ?_ (by rw [hcellt]; exact hn) (by rw [hcellt, hcell]) hop hev
  rw [List.flatMap_singleton, hr']
  rfl

theorem Next.workEffect {s s' : Shared N T V} {f : Frame N T V} {ev : Event T V}
    {gs : List (Frame N T V)} (h : Next s f ev s' gs) : WorkEffect s f ev s' gs := by
  have hself : ∀ t, update s.cell t (s.cell t) = s.cell := fun t => update_eq_self t s.cell
  cases h with
  | call hu hc => exact callStep_workEffect hu hc
  | begin hu hc =>
    cases callStart_next hc with
    | _ =>
      refine .keep ?_ rfl rfl
      rw [List.flatMap_singleton, Frame.work_setCall hu, Frame.work_user hu]
      rfl
  | setMie => exact .keep (List.flatMap_singleton _ _) rfl rfl
  | external => exact .keep (List.flatMap_singleton _ _) rfl rfl
  | trapSoft => exact .keep (by simp [Frame.work, Frame.polls, Frame.calling, Frame.user]) rfl rfl
  | trapIsr => exact .keep (by simp [Frame.work, Frame.polls, Frame.calling, Frame.user]) rfl rfl
  | clear sys => exact .keep (by cases sys <;> rfl) rfl rfl
  | dequeue => exact .keep rfl (s.setTask_cell_eq _ rfl) rfl
  | @gotPoll e t hfn =>
    refine .enter e t rfl rfl hfn rfl rfl ?_
    show (if (s.tasks t).pollFn = some .poll then some (t, SlotOp.poll) else none) = _
    rw [if_pos hfn]
  | @gotExited e t hfn =>
    refine .keep rfl rfl ?_
    show (if (s.tasks t).pollFn = some .poll then some (t, SlotOp.poll) else none) = none
    rw [hfn]
    rfl
  | pending e t => exact .of_run (c := s.cell t) rfl rfl (hself t).symm .pending rfl (Or.inr (Or.inl rfl))
  | ready e t v => exact .of_run rfl rfl (s.setTask_cell t _) .ready rfl (Or.inr (Or.inl rfl))
  | storeResult e t v =>
    refine .of_run (c := s.cell t) rfl rfl ?_ .storeResult rfl (Or.inl rfl)
    rw [hself t]
    exact s.setTask_cell_eq t rfl
  | storeNull e t =>
    refine .of_run (c := s.cell t) rfl rfl ?_ .storeNull rfl (Or.inl rfl)
    rw [hself t]
    exact s.setTask_cell_eq t rfl
  | dropInPlace e t =>
    exact .of_run rfl rfl (s.setTask_cell t _) .dropInPlace rfl (Or.inr (Or.inr rfl))
  | storeExited e t => exact .of_run rfl rfl (s.setTask_cell t _) .storeExited rfl (Or.inl rfl)
  | notify hn => exact .of_run rfl rfl (Shared.notifyLocked_cell hn) .notify rfl (Or.inl rfl)
  | _ => exact .keep rfl rfl rfl

/-! ### Storages in order -/

/-- The accesses to the slot of `t`. -/
def opsOf (t : T) : Option (T × SlotOp) → List SlotOp
  | some (u, op) => if u = t then [op] else []
  | none => []

theorem opsOf_self (t : T) (op : Option SlotOp) :
    opsOf t (op.map fun o => (t, o)) = op.toList := by
  cases op with
  | none => rfl
  | some o => exact if_pos rfl

theorem opsOf_ne {t u : T} (h : t ≠ u) (op : Option SlotOp) :
    opsOf t (op.map fun o => (u, o)) = [] := by
  cases op with
  | none => rfl
  | some o => exact if_neg (Ne.symm h)

namespace Kernel

def Staged (k : Kernel N T V) (t : T) : Prop :=
  (k.shared.cell t).Phase (stagesOf t (k.frames.flatMap Frame.work))

/-- An executor that is about to enter `TaskStorage::poll` of `t` is the only one
inside it, and the future of `t` does not stand to be written. -/
def PollOk (t : T) (k : Kernel N T V) (ev : Event T V) : Prop :=
  ev = .tick → ∀ e fs, k.frames = .run e (.got t) :: fs →
    (k.shared.tasks t).pollFn = some .poll →
    ∀ g ∈ fs, g.within ≠ some t ∧ g.calling ≠ some (.storageWrite t)

section Step

variable {s s' : Shared N T V} {f : Frame N T V} {ev : Event T V} {fs gs : List (Frame N T V)}

/-- A task whose `poll_fn` is set and that nobody works on waits to be polled. -/
theorem Staged.waiting {e : Fin N} {t : T} (hk : Staged ⟨s, .run e (.got t) :: fs⟩ t)
    (hfn : (s.tasks t).pollFn = some .poll)
    (hno : ∀ g ∈ fs, g.within ≠ some t ∧ g.calling ≠ some (.storageWrite t)) :
    stagesOf t (fs.flatMap Frame.work) = [] ∧ (s.cell t).spawned = true ∧
      (s.cell t).slot = .live := by
  have hphase : (s.cell t).Phase (stagesOf t (fs.flatMap Frame.work)) := hk
  have hfn : (s.cell t).pollFn = some .poll := hfn
  generalize hl : stagesOf t (fs.flatMap Frame.work) = l at hphase
  cases hphase with
  | free _ _ hne => exact absurd hfn hne
  | waiting hsp hslot _ => exact ⟨rfl, hsp, hslot⟩
  | busy st hsp hok =>
    exfalso
    have hmem : (t, st) ∈ fs.flatMap Frame.work := by
      rw [← mem_stagesOf, hl]
      exact List.mem_singleton_self st
    obtain ⟨g, hg, hwork⟩ := List.mem_flatMap.mp hmem
    rcases List.mem_append.mp hwork with hpoll | hcall
    · exact (hno g hg).1 (Frame.within_of_mem_polls hpoll)
    · obtain ⟨c, hc, hst⟩ := Option.bind_eq_some_iff.mp (Option.mem_toList.mp hcall)
      cases c with
      | storageResult u =>
        obtain ⟨rfl, rfl⟩ := Prod.mk.inj (Option.some.inj hst)
        exact hok.2 hfn
      | storageWaker u =>
        obtain ⟨rfl, rfl⟩ := Prod.mk.inj (Option.some.inj hst)
        exact hok.2 hfn
      | storageFn u =>
        obtain ⟨rfl, rfl⟩ := Prod.mk.inj (Option.some.inj hst)
        exact hok.2 hfn
      | storageWrite u =>
        obtain ⟨rfl, -⟩ := Prod.mk.inj (Option.some.inj hst)
        exact (hno g hg).2 hc
      | _ => cases hst

/-- The one activation that works on a task is the one that goes on. -/
theorem Staged.move {t : T} {st : Stage} {st' : Option Stage} {l : List (T × Stage)}
    (hk : Staged ⟨s, f :: fs⟩ t) (hwork : f.work = l ++ [(t, st)])
    (hwork' : gs.flatMap Frame.work = l ++ st'.toList.map fun x => (t, x)) :
    (s.cell t).Phase [st] ∧ stagesOf t ((f :: fs).flatMap Frame.work) = [st] ∧
      stagesOf t ((gs ++ fs).flatMap Frame.work) = st'.toList := by
  have hphase : (s.cell t).Phase (stagesOf t ((f :: fs).flatMap Frame.work)) := hk
  have hold : stagesOf t ((f :: fs).flatMap Frame.work) =
      stagesOf t l ++ [st] ++ stagesOf t (fs.flatMap Frame.work) := by
    rw [List.flatMap_cons, hwork, stagesOf_append, stagesOf_append, stagesOf_self]
  rw [hold] at hphase
  generalize hm : stagesOf t l ++ [st] ++ stagesOf t (fs.flatMap Frame.work) = m at hphase
  have hlen := congrArg List.length hm
  simp only [List.length_append, List.length_cons, List.length_nil] at hlen
  cases hphase with
  | free => simp at hlen
  | waiting => simp at hlen
  | busy st₀ hsp hok =>
    simp only [List.length_cons, List.length_nil] at hlen
    have h1 : stagesOf t l = [] := List.length_eq_zero_iff.mp (by omega)
    have h2 : stagesOf t (fs.flatMap Frame.work) = [] := List.length_eq_zero_iff.mp (by omega)
    have hst : [st] = [st₀] := by rw [← hm, h1, h2, List.nil_append, List.append_nil]
    obtain ⟨rfl, -⟩ := List.cons.inj hst
    refine ⟨.busy st hsp hok, hold.trans hm, ?_⟩
    rw [List.flatMap_append, stagesOf_append, hwork', stagesOf_append, stagesOf_map, h1, h2,
      List.nil_append, List.append_nil]

/-- A step that meets the condition leaves the storage in order, and makes an
access that its slot allows. -/
theorem Staged.next {t : T} (hk : Staged ⟨s, f :: fs⟩ t) (hok : PollOk t ⟨s, f :: fs⟩ ev)
    (h : Next s f ev s' gs) :
    (s'.cell t).Phase (stagesOf t ((gs ++ fs).flatMap Frame.work)) ∧
      exec Slot.next (s.cell t).slot (opsOf t (s.slotOp f ev)) = some (s'.cell t).slot := by
  have hphase : (s.cell t).Phase (stagesOf t ((f :: fs).flatMap Frame.work)) := hk
  rw [List.flatMap_cons, stagesOf_append] at hphase
  rw [List.flatMap_append, stagesOf_append]
  cases h.workEffect with
  | keep hwork hcell hop =>
    rw [hwork, hcell, hop]
    exact ⟨hphase, rfl⟩
  | begin u hwork hclear hcell hop =>
    rw [hwork, hcell, hop, stagesOf_append]
    by_cases htu : t = u
    · subst htu
      rw [update_self]
      refine ⟨?_, rfl⟩
      -- `SPAWNED` is clear, so nobody works on the task
      generalize hl : stagesOf t f.work ++ stagesOf t (fs.flatMap Frame.work) = l at hphase
      cases hphase with
      | free _ hvac hne =>
        obtain ⟨h1, h2⟩ := List.append_eq_nil_iff.mp hl
        rw [h1, h2, stagesOf_self]
        exact .busy .result rfl ⟨hvac, hne⟩
      | waiting hsp _ _ =>
        rw [hclear] at hsp
        cases hsp
      | busy _ hsp _ =>
        rw [hclear] at hsp
        cases hsp
    · rw [update_of_ne htu, stagesOf_single_ne htu, List.append_nil]
      exact ⟨hphase, rfl⟩
  | enter e u hev hf hfn hgs hcell hop =>
    subst hf
    rw [hgs, hcell, hop]
    by_cases htu : t = u
    · subst htu
      obtain ⟨hnone, hsp, hslot⟩ := hk.waiting hfn (hok hev e fs rfl hfn)
      have hpoll : stagesOf t ([Frame.run e (.poll t none)].flatMap (Frame.work (V := V))) = [.poll] :=
        stagesOf_self t .poll
      rw [hnone, hpoll]
      refine ⟨.busy .poll hsp ⟨hslot, hfn⟩, ?_⟩
      rw [show opsOf t (some (t, SlotOp.poll)) = [.poll] from if_pos rfl, hslot]
      rfl
    · have hpoll : stagesOf t ([Frame.run e (.poll u none)].flatMap (Frame.work (V := V))) = [] :=
        stagesOf_single_ne htu .poll
      rw [hpoll, show opsOf t (some (u, SlotOp.poll)) = [] from if_neg (Ne.symm htu)]
      exact ⟨hphase, rfl⟩
  | move u st st' op l hwork hwork' hn hcell hop _ =>
    by_cases htu : t = u
    · subst htu
      obtain ⟨hone, -, hnew⟩ := hk.move hwork hwork'
      rw [List.flatMap_append, stagesOf_append] at hnew
      rw [hnew, hop, opsOf_self]
      exact hone.move hn
    · rw [hwork, stagesOf_append, stagesOf_single_ne htu, List.append_nil] at hphase
      rw [hwork', stagesOf_append, stagesOf_ne htu, List.append_nil, hop, opsOf_ne htu, hcell,
        update_of_ne htu]
      exact ⟨hphase, rfl⟩

end Step

theorem init_staged (t : T) : Staged (init (N := N) (T := T) (V := V)) t :=
  .free rfl (Or.inl rfl) (by simp [init, Shared.init, Shared.cell, TaskInfo.cell, TaskInfo.new])

/-- Whoever is inside `TaskStorage::poll` works on the task. -/
theorem countP_within_le (fs : List (Frame N T V)) (t : T) :
    (fs.countP fun f => f.within = some t) ≤ (stagesOf t (fs.flatMap Frame.work)).length := by
  induction fs with
  | nil => exact Nat.le_refl _
  | cons f fs ih =>
    rw [List.flatMap_cons, stagesOf_append, List.length_append, List.countP_cons]
    by_cases hf : f.within = some t
    · obtain ⟨st, hst⟩ := Frame.mem_polls_of_within hf
      have hmem : st ∈ stagesOf t f.work := mem_stagesOf.mpr (List.mem_append_left _ hst)
      have hpos := List.length_pos_of_mem hmem
      simp only [hf, decide_true, if_true]
      omega
    · simp only [hf, decide_false, Bool.false_eq_true, if_false]
      omega

theorem Staged.alone {k : Kernel N T V} {t : T} (hk : Staged k t) :
    (k.frames.countP fun f => f.within = some t) ≤ 1 := by
  have hle := countP_within_le k.frames t
  have hphase : (k.shared.cell t).Phase (stagesOf t (k.frames.flatMap Frame.work)) := hk
  generalize stagesOf t (k.frames.flatMap Frame.work) = l at hle hphase
  cases hphase with
  | free => exact hle.trans (Nat.zero_le 1)
  | waiting => exact hle.trans (Nat.zero_le 1)
  | busy => exact hle

end Kernel

/-! ### The accesses of a run -/

def Kernel.slotNext (k : Kernel N T V) (ev : Event T V) (log : T → List SlotOp) :
    T → List SlotOp :=
  match k.frames with
  | f :: _ => fun t => log t ++ opsOf t (k.shared.slotOp f ev)
  | [] => log

/-- The hart, and the accesses to every slot. -/
structure SlotHistory (N : ℕ) (T V : Type) where
  kernel : Kernel N T V
  log : T → List SlotOp

namespace SlotHistory

def init : SlotHistory N T V := ⟨.init, fun _ => []⟩

def step (h : SlotHistory N T V) (ev : Event T V) : Option (SlotHistory N T V) :=
  (h.kernel.step ev).map fun k' => ⟨k', h.kernel.slotNext ev h.log⟩

/-- Every slot is used soundly: it is polled and dropped only while it allows
it, every future is dropped once between its `Ready` and the next write, and
one activation at most is inside `TaskStorage::poll`. -/
structure Sound (h : SlotHistory N T V) : Prop where
  lawful : ∀ t, Lawful (h.log t)
  once : ∀ t, DroppedOnce (h.log t)
  alone : ∀ t, (h.kernel.frames.countP fun f => f.within = some t) ≤ 1

def PollOk (h : SlotHistory N T V) (ev : Event T V) : Prop := ∀ t, h.kernel.PollOk t ev

structure Inv (h : SlotHistory N T V) : Prop where
  staged : ∀ t, h.kernel.Staged t
  log : ∀ t, exec Slot.next .uninit (h.log t) = some (h.kernel.shared.cell t).slot

theorem Inv.sound {h : SlotHistory N T V} (hI : Inv h) : Sound h where
  lawful t := Option.isSome_iff_exists.mpr ⟨_, hI.log t⟩
  once t := Lawful.dropped_once (Option.isSome_iff_exists.mpr ⟨_, hI.log t⟩)
  alone t := (hI.staged t).alone

theorem step_some {h h' : SlotHistory N T V} {ev : Event T V} (hs : step h ev = some h') :
    ∃ f fs s' gs, h = ⟨⟨h.kernel.shared, f :: fs⟩, h.log⟩ ∧
      h' = ⟨⟨s', gs ++ fs⟩, fun t => h.log t ++ opsOf t (h.kernel.shared.slotOp f ev)⟩ ∧
      Next h.kernel.shared f ev s' gs := by
  obtain ⟨k', hk', rfl⟩ := Option.map_eq_some_iff.mp hs
  obtain ⟨f, fs, s', gs, hk, rfl, hnext⟩ := Kernel.step_next hk'
  refine ⟨f, fs, s', gs, by rw [← hk], ?_, hnext⟩
  rw [Kernel.slotNext, hk]

theorem Inv.next {h h' : SlotHistory N T V} {ev : Event T V} (hI : Inv h) (hok : PollOk h ev)
    (hs : step h ev = some h') : Inv h' := by
  obtain ⟨f, fs, s', gs, hh, rfl, hn⟩ := step_some hs
  rw [hh] at hI hok
  refine ⟨fun t => ((hI.staged t).next (hok t) hn).1, fun t => ?_⟩
  show exec Slot.next .uninit (h.log t ++ opsOf t (h.kernel.shared.slotOp f ev)) = _
  rw [exec_append, hI.log t, Option.bind_some]
  exact ((hI.staged t).next (hok t) hn).2

/-- What becomes unsound when a poll is entered that should not be. -/
theorem Inv.pollOk {h h' : SlotHistory N T V} {ev : Event T V} (hI : Inv h)
    (hs : step h ev = some h') (hsound : Sound h') : PollOk h ev := by
  rintro t rfl e fs hfr hfn g hg
  obtain ⟨f, fs', s', gs, hh, rfl, hn⟩ := step_some hs
  rw [hh] at hfr
  obtain ⟨rfl, rfl⟩ := List.cons.inj hfr
  have hgs : gs = [.run e (.poll t none)] := by
    cases hn with
    | call hu _ => cases hu
    | gotPoll => rfl
    | gotExited hfn' =>
      rw [show (h.kernel.shared.tasks t).pollFn = some .poll from hfn] at hfn'
      cases hfn'
  subst hgs
  refine ⟨fun hw => ?_, fun hc => ?_⟩
  · -- two activations are inside the poll
    have hone : ((Frame.run e (.poll t none) :: fs').countP fun f : Frame N T V => f.within = some t) ≤ 1 :=
      hsound.alone t
    have hpos : 0 < fs'.countP fun f => f.within = some t :=
      List.countP_pos_iff.mpr ⟨g, hg, by simp [hw]⟩
    rw [List.countP_cons_of_pos (by simp [Frame.within, RunPc.task])] at hone
    omega
  · -- nothing is in the slot
    have hmem : (t, Stage.write) ∈ h.kernel.frames.flatMap Frame.work := by
      rw [hh]
      refine List.mem_flatMap.mpr ⟨g, List.mem_cons_of_mem _ hg, List.mem_append_right _ ?_⟩
      rw [hc]
      exact List.mem_singleton_self _
    have hvac : (h.kernel.shared.cell t).Vacant := by
      have hst := mem_stagesOf.mpr hmem
      have hphase : (h.kernel.shared.cell t).Phase
          (stagesOf t (h.kernel.frames.flatMap Frame.work)) := hI.staged t
      generalize stagesOf t (h.kernel.frames.flatMap Frame.work) = l at hst hphase
      cases hphase with
      | free => cases hst
      | waiting => cases hst
      | busy st _ hok =>
        obtain rfl := List.mem_singleton.mp hst
        exact hok.1
    have hlaw : (exec Slot.next .uninit
        (h.log t ++ opsOf t (h.kernel.shared.slotOp (.run e (.got t)) .tick))).isSome :=
      hsound.lawful t
    have hop : h.kernel.shared.slotOp (.run e (.got t)) .tick = some (t, .poll) := if_pos hfn
    rw [hop, exec_append, hI.log t, Option.bind_some,
      show opsOf t (some (t, SlotOp.poll)) = [.poll] from if_pos rfl] at hlaw
    rcases hvac with hslot | hslot
    · rw [hslot] at hlaw
      cases hlaw
    · rw [hslot] at hlaw
      cases hlaw

theorem init_inv : Inv (init : SlotHistory N T V) := ⟨Kernel.init_staged, fun _ => rfl⟩

/-- Where one incarnation of a task at most is about, the executor that has
dequeued it is the only one that works on it. -/
theorem pollOk_of_sole {h : SlotHistory N T V} {ev : Event T V} (hn : Nested h.kernel)
    (hsole : ∀ t, h.kernel.Sole t) : PollOk h ev := by
  rintro t - e fs hframes - g hg
  have hmem : ∀ f ∈ Frame.run e (.got t) :: fs, f ∈ h.kernel.frames := fun f hf => hframes ▸ hf
  have hgot : h.kernel.InHand t e :=
    Or.inr (Or.inr (Or.inr ⟨_, hmem _ List.mem_cons_self, rfl⟩))
  refine ⟨fun hw => ?_, fun hcall => ?_⟩
  · -- two activations inside `run` of one executor
    obtain ⟨q, hs, hr⟩ := Frame.serving_of_within hw
    have hq : h.kernel.InHand t q :=
      Or.inr (Or.inr (Or.inr ⟨g, hmem g (List.mem_cons_of_mem _ hg), hs⟩))
    have hsorted := hn.running_sorted
    rw [hframes, List.filterMap_cons_some (rfl : (Frame.run e (.got t)).running = some e)] at hsorted
    have hlt := (List.pairwise_cons.mp hsorted).1 q (List.mem_filterMap.mpr ⟨g, hg, hr⟩)
    rw [(hsole t).one e q hgot hq] at hlt
    exact lt_irrefl _ hlt
  · have hfile : g.filing = some t := by
      rw [Frame.filing, hcall]
      rfl
    exact (hsole t).nobody (tickets_pos (hmem g (List.mem_cons_of_mem _ hg)) hfile) e hgot

/-- **Every slot is used soundly over all its incarnations**, in every state
that a run visits, exactly when no executor of the run enters
`TaskStorage::poll` of a task while another activation is inside it, or while
a `TaskStorage::spawn` of the task has stored `poll_fn` and not written the
future. None does in a run in which `TaskStorage::spawn` sets `SPAWNED` only of
a task that nobody has in hand any more. -/
theorem slot_sound_iff (es : List (Event T V)) :
    (Always step Sound (init : SlotHistory N T V) es ↔
      Along step PollOk (init : SlotHistory N T V) es) ∧
    (Along step (fun h ev => h.kernel.SpawnsFresh ev) (init : SlotHistory N T V) es →
      Along step PollOk (init : SlotHistory N T V) es) := by
  refine ⟨always_iff_along (I := Inv) (fun _ hI => hI.sound) (fun _ _ _ hI hok hs => hI.next hok hs)
      (fun _ _ _ hI hs hsound => hI.pollOk hs hsound) init_inv,
    along_of_along (I := fun h => h.kernel.Reachable ∧ ∀ t, h.kernel.Sole t) ?_ ?_
      ⟨.refl _, Kernel.Sole.init⟩⟩
  · exact fun h ev ⟨hr, hsole⟩ => pollOk_of_sole (Kernel.nested hr).2 hsole
  · intro h ev h' ⟨hr, hsole⟩ hok hs
    obtain ⟨k', hk', rfl⟩ := Option.map_eq_some_iff.mp hs
    exact ⟨hr.tail trivial hk', Kernel.sole_next hsole hok hk'⟩

/-- A task asked for at priority 1 wakes itself in the poll that returns
`Ready`. When executor 1 has dequeued the link that this leaves, a handler
spawns on the storage again, at priority 0; executor 0 polls the new future
once. Then executor 1 reads `poll_fn`, and while it polls the future a handler
wakes the task. -/
def leftover : List (Event Unit Unit) :=
  List.flatten [Event.spawnTask ⟨1⟩ (), [.setMie true], Event.machineSoft,
    [.tick, .call (.wake ())], List.replicate 5 .tick, [.trapSoft, .ret], List.replicate 4 .tick,
    [.ready (), .tick, .tick, .ret, .tick, .tick, .tick], [.trapIsr], Event.spawnTask ⟨0⟩ (),
    [.ret], Event.machineSoft, [.tick, .pending], List.replicate 5 .tick, [.tick],
    [.trapIsr, .call (.wake ())], List.replicate 5 .tick, [.ret], Event.machineSoft, [.tick]]

/-- Two executors are inside the poll of one future. -/
theorem polled_twice : ∃ h : SlotHistory 2 Unit Unit, exec step init leftover = some h ∧
    h.kernel.frames = [.run 0 (.poll () none), .run 1 (.poll () none), .base none] ∧
    h.log () = [.write, .poll, .ready, .drop, .write, .poll, .poll, .poll] ∧
    ¬ Always step Sound (init : SlotHistory 2 Unit Unit) leftover := by
  have hobs : ((exec step (init : SlotHistory 2 Unit Unit) leftover).map fun h =>
      (h.kernel.frames, h.log ())) =
      some ([.run 0 (.poll () none), .run 1 (.poll () none), .base none],
        [.write, .poll, .ready, .drop, .write, .poll, .poll, .poll]) := by decide +kernel
  obtain ⟨h, hexec, hobs⟩ := Option.map_eq_some_iff.mp hobs
  obtain ⟨hfr, hlog⟩ := Prod.mk.inj hobs
  refine ⟨h, hexec, hfr, hlog, fun hall => ?_⟩
  have hone := (hall.of_exec hexec).alone ()
  rw [hfr] at hone
  revert hone
  decide

end SlotHistory
end RtAsync

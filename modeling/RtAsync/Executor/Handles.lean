/-
# Whose output a join handle resolves with

A storage `t` is spawned any number of times, and the handles of all its
incarnations are kept beside the hart, in the ledger of `Ledger.lean`. A
`JoinHandle` stores the address of the task only; which of them an event is
about is part of the event. A future returns its output tagged with the number
of its incarnation.

As long as the accesses to the slot are lawful and no `TaskStorage::spawn`
clears `join.result` while the last handle is live, a step of the hart is one
of `Desk.Next`, so every handle resolves with its own output
(`Handles.own_outputs_iff`). The code does not see to the second: despawning
wakes the task that awaits the handle, and does not wait until it has run
(`Handles.output_of_next`).

Key definitions: `Ledger.tick`, `Ledger.next`, `Handles`, `Handles.Own`,
`Handles.Kept`, `Handles.RespawnOk`, `Kernel.epoch`, `JoinEffect`.
Key theorems: `Kernel.Staged.epoch_keep`, `Next.joinEffect`,
`Handles.Inv.desk_next`, `Handles.own_outputs_iff`, `Handles.output_of_next`.
-/
import RtAsync.Executor.Join
import RtAsync.Executor.Ledger
import RtAsync.Executor.Slot

namespace RtAsync

open Function (update update_self update_of_ne)
open Transition (Along Always along_and along_iff_of_invariant always_of_along exec)

variable {N : ℕ} {T V : Type}

/-! ### Where a storage stands -/

/-- The statement changes where the storage of `t` stands. -/
def Frame.Edge (t : T) (f : Frame N T V) : Prop :=
  f.calling = some (.storageResult t) ∨ f.calling = some (.storageWrite t) ∨
    ∃ e v, f = .run e (.storeResult t v)

/-- `TaskStorage::spawn` has cleared `join.result`, the future has not returned
its output, or it has. -/
def epochOf (c : Cell) : List Stage → Epoch
  | [.waker] => .cleared
  | [.fn] => .cleared
  | [.write] => .cleared
  | [.storeResult] => .pending
  | _ => if c.slot = .live then .pending else .done

/-- Only three statements of `TaskStorage::spawn` and `TaskStorage::poll` change
it. -/
theorem Stage.Next.epoch {c c' : Cell} {st : Stage} {st' : Option Stage} {op : Option SlotOp}
    (hn : Stage.Next c st c' st' op) (hok : st.Ok c) (hedge : st ≠ .result ∧ st ≠ .write ∧
      st ≠ .storeResult) : epochOf c' st'.toList = epochOf c [st] := by
  obtain ⟨h1, h2, h3⟩ := hedge
  cases hn with
  | result => exact absurd rfl h1
  | write => exact absurd rfl h2
  | storeResult => exact absurd rfl h3
  | ready => simp [epochOf, hok.1]
  | dropInPlace => simp [epochOf, hok.1]
  | _ => rfl

theorem Frame.calling_of_mem_work {f : Frame N T V} {t : T} {st : Stage} (h : (t, st) ∈ f.work) :
    (t, st) ∈ f.polls ∨ ∃ c, f.calling = some c ∧ c.stage = some (t, st) := by
  refine (List.mem_append.mp h).imp_right fun hc => ?_
  exact Option.bind_eq_some_iff.mp (Option.mem_toList.mp hc)

/-- Who works on a task at one of the three statements is at it. -/
theorem Frame.edge_of_mem_work {f : Frame N T V} {t : T} {st : Stage} (h : (t, st) ∈ f.work)
    (hst : st = .result ∨ st = .write ∨ st = .storeResult) : f.Edge t := by
  rcases f.calling_of_mem_work h with hp | ⟨c, hc, hcs⟩
  · cases f with
    | run e r =>
      have hr : r.stage = some (t, st) := Option.mem_toList.mp hp
      cases r with
      | storeResult u v =>
        obtain ⟨rfl, -⟩ := Prod.mk.inj (Option.some.inj hr)
        exact Or.inr (Or.inr ⟨e, v, rfl⟩)
      | got u => cases hr
      | start => cases hr
      | top => cases hr
      | _ =>
        obtain ⟨rfl, rfl⟩ := Prod.mk.inj (Option.some.inj hr)
        simp at hst
    | _ => cases hp
  · cases c with
    | storageResult u =>
      obtain ⟨rfl, -⟩ := Prod.mk.inj (Option.some.inj hcs)
      exact Or.inl hc
    | storageWrite u =>
      obtain ⟨rfl, -⟩ := Prod.mk.inj (Option.some.inj hcs)
      exact Or.inr (Or.inl hc)
    | storageWaker u =>
      obtain ⟨rfl, rfl⟩ := Prod.mk.inj (Option.some.inj hcs)
      simp at hst
    | storageFn u =>
      obtain ⟨rfl, rfl⟩ := Prod.mk.inj (Option.some.inj hcs)
      simp at hst
    | _ => cases hcs

variable [DecidableEq T]

def Kernel.epoch (k : Kernel N T V) (t : T) : Epoch :=
  epochOf (k.shared.cell t) (stagesOf t (k.frames.flatMap Frame.work))

section Epochs

variable {s s' : Shared N T V} {f : Frame N T V} {ev : Event T V} {fs gs : List (Frame N T V)}
  {t : T}

/-- A lawful step that executes none of the three statements. -/
theorem Kernel.Staged.epoch_keep (hk : Kernel.Staged ⟨s, f :: fs⟩ t)
    (hok : Kernel.PollOk t ⟨s, f :: fs⟩ ev) (hn : Next s f ev s' gs) (hedge : ev = .tick → ¬f.Edge t) :
    Kernel.epoch ⟨s', gs ++ fs⟩ t = Kernel.epoch ⟨s, f :: fs⟩ t := by
  have hphase := hk
  show epochOf (s'.cell t) (stagesOf t ((gs ++ fs).flatMap Frame.work)) =
    epochOf (s.cell t) (stagesOf t ((f :: fs).flatMap Frame.work))
  have hsplit : stagesOf t ((f :: fs).flatMap Frame.work) =
      stagesOf t f.work ++ stagesOf t (fs.flatMap Frame.work) := by
    rw [List.flatMap_cons, stagesOf_append]
  have hsplit' : stagesOf t ((gs ++ fs).flatMap Frame.work) =
      stagesOf t (gs.flatMap Frame.work) ++ stagesOf t (fs.flatMap Frame.work) := by
    rw [List.flatMap_append, stagesOf_append]
  cases hn.workEffect with
  | keep hwork hcell _ => rw [hsplit, hsplit', hwork, hcell]
  | begin u hwork hclear hcell _ =>
    rw [hsplit', hwork, hcell, stagesOf_append]
    by_cases htu : t = u
    · subst htu
      have hphase : (s.cell t).Phase (stagesOf t ((f :: fs).flatMap Frame.work)) := hphase
      rw [update_self]
      generalize hl : stagesOf t ((f :: fs).flatMap Frame.work) = l at hphase
      rw [hsplit] at hl
      cases hphase with
      | free _ hvac _ =>
        obtain ⟨h1, h2⟩ := List.append_eq_nil_iff.mp hl
        rw [h1, h2, stagesOf_self]
        rfl
      | waiting hsp _ _ =>
        rw [hclear] at hsp
        cases hsp
      | busy _ hsp _ =>
        rw [hclear] at hsp
        cases hsp
    · rw [update_of_ne htu, stagesOf_single_ne htu, List.append_nil, hsplit]
  | enter e u hev hf hfn hgs hcell _ =>
    subst hf
    rw [hsplit', hgs, hcell]
    by_cases htu : t = u
    · subst htu
      obtain ⟨hnone, -, hslot⟩ := hk.waiting hfn (hok hev e fs rfl hfn)
      have hold : stagesOf t ((Frame.run e (.got t) :: fs).flatMap Frame.work) = [] := hnone
      have hpoll : stagesOf t ([Frame.run e (.poll t none)].flatMap (Frame.work (V := V))) = [.poll] :=
        stagesOf_self t .poll
      rw [hnone, hpoll, hold]
      rfl
    · have hpoll : stagesOf t ([Frame.run e (.poll u none)].flatMap (Frame.work (V := V))) = [] :=
        stagesOf_single_ne htu .poll
      rw [hpoll]
      rfl
  | move u st st' op l hwork hwork' hnext hcell _ hev =>
    by_cases htu : t = u
    · subst htu
      obtain ⟨hone, hold, hnew⟩ := hk.move hwork hwork'
      rw [hold, hnew]
      cases hone with
      | busy _ _ hok =>
        have hmem : (t, st) ∈ f.work := by
          rw [hwork]
          exact List.mem_append_right _ (List.mem_singleton_self _)
        have hno : ¬(st = .result ∨ st = .write ∨ st = .storeResult) := fun hst => by
          refine hedge ?_ (f.edge_of_mem_work hmem hst)
          rcases hev with hev | rfl | rfl
          · exact hev
          · simp at hst
          · simp at hst
        simp only [not_or] at hno
        exact hnext.epoch hok hno
    · rw [hsplit, hsplit', hwork, hwork', stagesOf_append, stagesOf_append, stagesOf_single_ne htu,
        stagesOf_ne htu, hcell, update_of_ne htu]

/-- A lawful step that executes one of them. -/
theorem Kernel.Staged.epoch_move {st : Stage} {st' : Option Stage} {l : List (T × Stage)}
    (hk : Kernel.Staged ⟨s, f :: fs⟩ t) (s' : Shared N T V) (hwork : f.work = l ++ [(t, st)])
    (hwork' : gs.flatMap Frame.work = l ++ st'.toList.map fun x => (t, x)) :
    st.Ok (s.cell t) ∧ Kernel.epoch ⟨s, f :: fs⟩ t = epochOf (s.cell t) [st] ∧
      Kernel.epoch ⟨s', gs ++ fs⟩ t = epochOf (s'.cell t) st'.toList := by
  obtain ⟨hone, hold, hnew⟩ := hk.move hwork hwork'
  refine ⟨?_, ?_, ?_⟩
  · cases hone with
    | busy _ _ hok => exact hok
  · rw [Kernel.epoch, hold]
  · rw [Kernel.epoch, hnew]

end Epochs

/-! ### The ledger beside the hart -/

namespace Ledger

/-- What the next access of the innermost activation does to the ledger of
`t`. -/
def tick (t : T) (s : Shared N T (ℕ × V)) (f : Frame N T (ℕ × V)) (l : Ledger V) : Ledger V :=
  match f.calling with
  | some (.storageWaker u) => if u = t then l.unregister else l
  | some (.storageWrite u) => if u = t then l.write else l
  | some (.joinTake u _) =>
    if u = t then
      match (s.tasks t).join.result with
      | some v => l.take v
      | none => l
    else l
  | some (.joinStore u _) => if u = t then l.store else l
  | some _ => l
  | none => match f with
    | .run _ (.storeResult u v) => if u = t then l.finish v else l
    | .run _ (.notify u) => if u = t then l.unregister else l
    | _ => l

/-- `Spawner::spawn` and `JoinHandle::poll` are called with the token and the
handle `i`; a future that returns `Ready` returns the output of its
incarnation. -/
def next (t : T) (k : Kernel N T (ℕ × V)) (i : ℕ) (ev : Event T (ℕ × V)) (l : Ledger V) :
    Option (Ledger V) :=
  match ev with
  | .call (.spawn _ u) => if u = t then l.spawn i else some l
  | .call (.joinPoll u _) => if u = t then l.join i else some l
  | .ready v => match k.frames with
    | .run _ (.poll u none) :: _ => if u = t ∧ v.1 ≠ l.born then none else some l
    | _ => some l
  | .tick => match k.frames with
    | f :: _ => some (l.tick t k.shared f)
    | [] => some l
  | _ => some l

end Ledger

/-- The ledger and `join.waker` stay, or both forget the handle that stored
its waker. -/
def WakerKept (t : T) (s s' : Shared N T (ℕ × V)) (l l' : Ledger V) : Prop :=
  (l' = l ∧ (s'.tasks t).join.waker = (s.tasks t).join.waker) ∨
    (l' = l.unregister ∧ (s'.tasks t).join.waker = none)

/-- What a step does to `join.result` and `join.waker` of `t`, to the polls of
its handles and to the ledger. -/
inductive JoinEffect (t : T) (s : Shared N T (ℕ × V)) (f : Frame N T (ℕ × V))
    (ev : Event T (ℕ × V)) (s' : Shared N T (ℕ × V)) (gs : List (Frame N T (ℕ × V)))
    (l l' : Ledger V) : Prop
  | keep : (ev = .tick → ¬f.Edge t) → (s'.tasks t).join.result = (s.tasks t).join.result →
      gs.filterMap (Frame.joining t) = (f.joining t).toList → WakerKept t s s' l l' →
      JoinEffect t s f ev s' gs l l'
  | spawn (i : ℕ) : ev ≠ .tick → (s'.tasks t).join = (s.tasks t).join →
      gs.filterMap (Frame.joining t) = (f.joining t).toList → l.spawn i = some l' →
      JoinEffect t s f ev s' gs l l'
  | join (i : ℕ) (w : T) : ev ≠ .tick → (s'.tasks t).join = (s.tasks t).join →
      f.joining t = none → gs.filterMap (Frame.joining t) = [w] → l.join i = some l' →
      JoinEffect t s f ev s' gs l l'
  | take (w : T) (v : ℕ × V) : f.calling = some (.joinTake t w) →
      (s.tasks t).join.result = some v →
      (s'.tasks t).join = { (s.tasks t).join with result := none } →
      gs.filterMap (Frame.joining t) = [] → l' = l.take v → JoinEffect t s f ev s' gs l l'
  | store (w : T) : f.calling = some (.joinStore t w) →
      (s'.tasks t).join = { (s.tasks t).join with waker := some w } →
      gs.filterMap (Frame.joining t) = [] → l' = l.store → JoinEffect t s f ev s' gs l l'
  | clear : ev = .tick → f.calling = some (.storageResult t) →
      (s'.tasks t).join = { (s.tasks t).join with result := none } →
      gs = [f.setCall (some (.storageWaker t))] → l' = l → JoinEffect t s f ev s' gs l l'
  | write : f.calling = some (.storageWrite t) → (s'.tasks t).join = (s.tasks t).join →
      (s'.cell t).slot = .live → gs = [f.setCall none] → l' = l.write →
      JoinEffect t s f ev s' gs l l'
  | finish (e : Fin N) (v : ℕ × V) : f = .run e (.storeResult t v) →
      (s'.tasks t).join = { (s.tasks t).join with result := some v } → s'.cell t = s.cell t →
      gs = [.run e (.storeNull t)] → l' = l.finish v → JoinEffect t s f ev s' gs l l'

section Effects

variable {s s' : Shared N T (ℕ × V)} {f : Frame N T (ℕ × V)} {ev : Event T (ℕ × V)}
  {gs : List (Frame N T (ℕ × V))} {t : T} {l l' : Ledger V}

omit [DecidableEq T] in
/-- User code is at one of the three statements in `TaskStorage::spawn` only. -/
theorem Frame.not_edge_of_user {f : Frame N T V} {c : Option (Call N T)} {t : T}
    (hu : f.user = some c) (h1 : c ≠ some (.storageResult t)) (h2 : c ≠ some (.storageWrite t)) :
    ¬f.Edge t := by
  have hc : f.calling = c := Frame.calling_eq hu
  rintro (h | h | ⟨e, v, rfl⟩)
  · exact h1 (hc.symm.trans h)
  · exact h2 (hc.symm.trans h)
  · cases hu

theorem Shared.setTask_ne (s : Shared N T (ℕ × V)) {u t : T} (h : t ≠ u) (i : TaskInfo N T (ℕ × V)) :
    (s.setTask u i).tasks t = s.tasks t := by
  rw [show (s.setTask u i).tasks = update s.tasks u i from rfl, update_of_ne h]

/-- An access that is not about the handles or the outputs of `t`. -/
theorem JoinEffect.of_call {c : Call N T} {c' : Option (Call N T)}
    (hu : f.user = some (some c)) (h1 : c ≠ .storageResult t) (h2 : c ≠ .storageWrite t)
    (hres : (s'.tasks t).join.result = (s.tasks t).join.result)
    (hc : c'.bind (Call.joining t) = c.joining t) (hl : WakerKept t s s' l l') :
    JoinEffect t s f .tick s' [f.setCall c'] l l' := by
  have hno : ¬f.Edge t := Frame.not_edge_of_user hu (fun h => h1 (Option.some.inj h))
    (fun h => h2 (Option.some.inj h))
  refine .keep (fun _ => hno) hres ?_ hl
  rw [filterMap_singleton, Frame.joining_setCall t hu, hc, Frame.joining, Frame.calling_eq hu,
    Option.bind_some]

/-- An access that leaves the join state of `t`. -/
theorem JoinEffect.of_same {c : Call N T} {c' : Option (Call N T)}
    (hu : f.user = some (some c)) (h1 : c ≠ .storageResult t) (h2 : c ≠ .storageWrite t)
    (hjoin : (s'.tasks t).join = (s.tasks t).join)
    (hc : c'.bind (Call.joining t) = c.joining t) (hl : l' = l) :
    JoinEffect t s f .tick s' [f.setCall c'] l l' :=
  .of_call hu h1 h2 (by rw [hjoin]) hc (Or.inl ⟨hl, by rw [hjoin]⟩)

theorem Shared.setTask_join (s : Shared N T (ℕ × V)) (t : T) {u : T} {i : TaskInfo N T (ℕ × V)}
    (hi : i.join = (s.tasks u).join) :
    ((s.setTask u i).tasks t).join = (s.tasks t).join := by
  by_cases htu : t = u
  · subst htu
    rw [Shared.setTask_self, hi]
  · rw [s.setTask_ne htu]

theorem callStep_joinEffect {c : Call N T} {c' : Option (Call N T)} (hu : f.user = some (some c))
    (h : callStep s c = some (s', c')) :
    JoinEffect t s f .tick s' [f.setCall c'] l (l.tick t s f) := by
  have hcall : f.calling = some c := Frame.calling_eq hu
  have hgs : [f.setCall c'].filterMap (Frame.joining t) = (c'.bind (Call.joining t)).toList := by
    rw [filterMap_singleton, Frame.joining_setCall t hu]
  cases callStep_next h with
  | @wakeSkip u =>
    exact .of_same hu (by simp) (by simp) (s.runEnqueue_same u t).join rfl
      (by simp [Ledger.tick, hcall])
  | @wakeFlag u =>
    exact .of_same hu (by simp) (by simp) (s.runEnqueue_same u t).join rfl
      (by simp [Ledger.tick, hcall])
  | @spawnSkip u =>
    exact .of_same hu (by simp) (by simp) (s.runEnqueue_same u t).join rfl
      (by simp [Ledger.tick, hcall])
  | @spawnFlag u =>
    exact .of_same hu (by simp) (by simp) (s.runEnqueue_same u t).join rfl
      (by simp [Ledger.tick, hcall])
  | @wakePush u e bm =>
    exact .of_same hu (by simp) (by simp) (s.pushed_same e u bm t).join rfl
      (by simp [Ledger.tick, hcall])
  | @spawnPush u e bm =>
    exact .of_same hu (by simp) (by simp) (s.pushed_same e u bm t).join rfl
      (by simp [Ledger.tick, hcall])
  | storageBusy =>
    exact .of_same hu (by simp) (by simp) (s.setTask_join t rfl) rfl (by simp [Ledger.tick, hcall])
  | storageFlag =>
    exact .of_same hu (by simp) (by simp) (s.setTask_join t rfl) rfl (by simp [Ledger.tick, hcall])
  | storageFn u =>
    exact .of_same hu (by simp) (by simp) (s.setTask_join t rfl) rfl (by simp [Ledger.tick, hcall])
  | storageWaker u =>
    by_cases htu : t = u
    · subst htu
      refine .of_call hu (by simp) (by simp) ?_ rfl (Or.inr ⟨by simp [Ledger.tick, hcall], ?_⟩)
      · rw [Shared.setTask_self]
      · rw [Shared.setTask_self]
    · refine .of_same hu (by simp) (by simp) ?_ rfl (by simp [Ledger.tick, hcall, Ne.symm htu])
      rw [s.setTask_ne htu]
  | storageResult u =>
    by_cases htu : t = u
    · subst htu
      refine .clear rfl hcall ?_ rfl (by simp [Ledger.tick, hcall])
      rw [Shared.setTask_self]
    · refine .of_same hu (by simpa using Ne.symm htu) (by simp) ?_ rfl
        (by simp [Ledger.tick, hcall])
      rw [s.setTask_ne htu]
  | storageWrite u =>
    have hjoin : ((s.setTask u { s.tasks u with slot := .live }).tasks t).join =
        (s.tasks t).join := s.setTask_join t rfl
    by_cases htu : t = u
    · subst htu
      have hself := s.setTask_self t { s.tasks t with slot := .live }
      refine .write hcall hjoin ?_ rfl (by simp [Ledger.tick, hcall])
      show ((s.setTask t _).tasks t).slot = _
      rw [hself]
    · exact .of_same hu (by simp) (by simpa using Ne.symm htu) hjoin rfl
        (by simp [Ledger.tick, hcall, Ne.symm htu])
  | @joinTake u w v hv =>
    by_cases htu : t = u
    · subst htu
      refine .take w v hcall hv ?_ hgs (by simp [Ledger.tick, hcall, hv])
      rw [Shared.setTask_self]
    · have hnone : (Call.joinTake u w : Call N T).joining t = none := if_neg (Ne.symm htu)
      refine .of_same hu (by simp) (by simp) ?_ hnone.symm
        (by simp [Ledger.tick, hcall, Ne.symm htu])
      rw [s.setTask_ne htu]
  | @joinWait u w hv =>
    refine .of_same hu (by simp) (by simp) rfl rfl ?_
    by_cases hut : u = t
    · subst hut
      simp [Ledger.tick, hcall, hv]
    · simp [Ledger.tick, hcall, hut]
  | joinStore u w =>
    by_cases htu : t = u
    · subst htu
      refine .store w hcall ?_ hgs (by simp [Ledger.tick, hcall])
      rw [Shared.setTask_self]
    · have hnone : (Call.joinStore u w : Call N T).joining t = none := if_neg (Ne.symm htu)
      refine .of_same hu (by simp) (by simp) ?_ hnone.symm (by simp [Ledger.tick, hcall, Ne.symm htu])
      rw [s.setTask_ne htu]
  | _ => exact .of_same hu (by simp) (by simp) rfl rfl (by simp [Ledger.tick, hcall])

/-- A call begins. -/
theorem callStart_joinEffect {r : Request T} {c : Call N T} {i : ℕ} {k : Kernel N T (ℕ × V)}
    (hu : f.user = some none) (h : callStart s r = some (s', c))
    (hl : l.next t k i (.call r) = some l') :
    JoinEffect t s f (.call r) s' [f.setCall (some c)] l l' := by
  have hf : f.joining t = none := by rw [Frame.joining, Frame.calling_eq hu, Option.bind_none]
  have hgs : [f.setCall (some c)].filterMap (Frame.joining t) = (c.joining t).toList := by
    rw [filterMap_singleton, Frame.joining_setCall t hu, Option.bind_some]
  have hkeep : (s'.tasks t).join = (s.tasks t).join → c.joining t = none → some l = some l' →
      JoinEffect t s f (.call r) s' [f.setCall (some c)] l l' := fun hjoin hc he =>
    .keep (fun hev => by cases hev) (by rw [hjoin]) (by rw [hgs, hc, hf])
      (Or.inl ⟨(Option.some.inj he).symm, by rw [hjoin]⟩)
  cases callStart_next h with
  | wake => exact hkeep rfl rfl hl
  | storageSpawn => exact hkeep rfl rfl hl
  | spawn =>
    unfold Ledger.next at hl
    simp only at hl
    split at hl
    · exact .spawn i (by simp) rfl (by rw [hgs, hf]; rfl) hl
    · exact hkeep rfl rfl hl
  | joinPoll u w =>
    unfold Ledger.next at hl
    simp only at hl
    split at hl
    · rename_i hut
      have hc : (Call.joinTake u w : Call N T).joining t = some w := if_pos hut
      exact .join i w (by simp) rfl hf (by rw [hgs, hc]; rfl) hl
    · rename_i hut
      exact hkeep rfl (if_neg hut) hl

/-- The last critical section of `TaskStorage::poll` leaves the output. -/
theorem notifyLocked_join {u : T} (h : s.notifyLocked u = some s') :
    (s'.tasks t).join = if t = u then { (s.tasks t).join with waker := none } else (s.tasks t).join := by
  have hd : ((s.despawned u).tasks t).join =
      if t = u then { (s.tasks t).join with waker := none } else (s.tasks t).join := by
    unfold Shared.despawned
    split
    · rename_i htu
      subst htu
      rw [Shared.setTask_self]
    · rename_i htu
      rw [s.setTask_ne htu]
  rcases Shared.notifyLocked_some h with ⟨-, rfl⟩ | ⟨w, -, hw⟩
  · exact hd
  · exact (Shared.wakeLocked_same hw t).join.trans hd

theorem Next.joinEffect {fs : List (Frame N T (ℕ × V))} {i : ℕ} (hn : Next s f ev s' gs)
    (hl : l.next t ⟨s, f :: fs⟩ i ev = some l') : JoinEffect t s f ev s' gs l l' := by
  -- a step that is not about the handles or the outputs of `t`
  have hkeep : (ev = .tick → ¬f.Edge t) → (s'.tasks t).join = (s.tasks t).join →
      gs.filterMap (Frame.joining t) = (f.joining t).toList → some l = some l' →
      JoinEffect t s f ev s' gs l l' := fun hno hjoin hgs hl =>
    .keep hno (by rw [hjoin]) hgs (Or.inl ⟨(Option.some.inj hl).symm, by rw [hjoin]⟩)
  -- a statement of `run`, but not the store of the output of `t`
  have hrun : ∀ {e : Fin N} {r : RunPc N T (ℕ × V)}, (∀ v, r ≠ .storeResult t v) →
      (Frame.run e r).calling = none → ¬(Frame.run e r).Edge t := fun hr hc => by
    rintro (h | h | ⟨e, v, he⟩)
    · rw [hc] at h
      cases h
    · rw [hc] at h
      cases h
    · exact hr v (Frame.run.inj he).2
  cases hn with
  | call hu hc =>
    obtain rfl : l.tick t s f = l' := Option.some.inj hl
    exact callStep_joinEffect hu hc
  | begin hu hc => exact callStart_joinEffect hu hc hl
  | setMie => exact hkeep (fun h => by cases h) rfl (filterMap_singleton _ f) hl
  | external => exact hkeep (fun h => by cases h) rfl (filterMap_singleton _ f) hl
  | trapSoft => exact hkeep (fun h => by cases h) rfl (filterMap_singleton _ f) hl
  | trapIsr => exact hkeep (fun h => by cases h) rfl (filterMap_singleton _ f) hl
  | isrRet => exact hkeep (fun h => by cases h) rfl rfl hl
  | hookRet => exact hkeep (fun h => by cases h) rfl rfl hl
  | pending => exact hkeep (fun h => by cases h) rfl rfl hl
  | ready e u v =>
    have hl : (if u = t ∧ v.1 ≠ l.born then none else some l) = some l' := hl
    split at hl
    · cases hl
    · exact hkeep (fun h => by cases h) (s.setTask_join t rfl) rfl hl
  | dropInPlace e u => exact hkeep (fun h => by cases h) (s.setTask_join t rfl) rfl hl
  | clear sys =>
    refine hkeep (fun _ => ?_) rfl (by cases sys <;> rfl) hl
    rintro (h | h | ⟨e, v, he⟩) <;> contradiction
  | dequeue => exact hkeep (fun _ => hrun (fun v => by simp) rfl) (s.setTask_join t rfl) rfl hl
  | storeNull e u => exact hkeep (fun _ => hrun (fun v => by simp) rfl) (s.setTask_join t rfl) rfl hl
  | storeExited e u =>
    exact hkeep (fun _ => hrun (fun v => by simp) rfl) (s.setTask_join t rfl) rfl hl
  | storeResult e u v =>
    have hl : (if u = t then l.finish v else l) = l' := Option.some.inj hl
    by_cases htu : t = u
    · subst htu
      rw [if_pos rfl] at hl
      refine .finish e v rfl ?_ ?_ rfl hl.symm
      · rw [Shared.setTask_self]
      · refine congrFun (s.setTask_cell_eq t ?_) t
        rfl
    · rw [if_neg (Ne.symm htu)] at hl
      refine hkeep (fun _ => hrun (fun x hx => ?_) rfl) ?_ rfl (congrArg some hl)
      · exact htu (RunPc.storeResult.inj hx).1.symm
      · rw [s.setTask_ne htu]
  | @notify e u _ hn =>
    have hl : (if u = t then l.unregister else l) = l' := Option.some.inj hl
    have hjoin := notifyLocked_join (t := t) hn
    by_cases htu : t = u
    · rw [if_pos htu] at hjoin
      rw [if_pos htu.symm] at hl
      exact .keep (fun _ => hrun (fun v => by simp) rfl) (by rw [hjoin]) rfl
        (Or.inr ⟨hl.symm, by rw [hjoin]⟩)
    · rw [if_neg htu] at hjoin
      rw [if_neg (Ne.symm htu)] at hl
      exact hkeep (fun _ => hrun (fun v => by simp) rfl) hjoin rfl (congrArg some hl)
  | runStart => exact hkeep (fun _ => hrun (fun v => by simp) rfl) rfl rfl hl
  | drained => exact hkeep (fun _ => hrun (fun v => by simp) rfl) rfl rfl hl
  | gotPoll => exact hkeep (fun _ => hrun (fun v => by simp) rfl) rfl rfl hl
  | gotExited => exact hkeep (fun _ => hrun (fun v => by simp) rfl) rfl rfl hl
  | _ =>
    refine hkeep (fun _ => ?_) rfl rfl hl
    rintro (h | h | ⟨e, v, he⟩) <;> contradiction

end Effects

/-- Only the future's `Ready` leads to the store of `join.result`. -/
theorem Next.storeResult_frame {s s' : Shared N T V} {f : Frame N T V} {ev : Event T V}
    {gs : List (Frame N T V)} {e : Fin N} {t : T} {v : V} (hn : Next s f ev s' gs)
    (h : .run e (.storeResult t v) ∈ gs) :
    f = .run e (.storeResult t v) ∨ ev = .ready v ∧ f = .run e (.poll t none) := by
  rcases hn.mem_frames h with rfl | hf | hf | rfl
  · exact Or.inl rfl
  · cases hf
  · cases hf
  generalize hgs : [Frame.run e (.storeResult t v)] = gs at hn
  cases hn with
  | call hu _ =>
    rcases Frame.user_cases hu with rfl | rfl | rfl | ⟨q, u, rfl⟩ | ⟨q, u, rfl⟩ <;> cases hgs
  | begin hu _ =>
    rcases Frame.user_cases hu with rfl | rfl | rfl | ⟨q, u, rfl⟩ | ⟨q, u, rfl⟩ <;> cases hgs
  | setMie => exact Or.inl (List.cons.inj hgs).1.symm
  | external => exact Or.inl (List.cons.inj hgs).1.symm
  | clear sys => cases sys <;> cases hgs
  | ready q u x =>
    cases hgs
    exact Or.inr ⟨rfl, rfl⟩
  | _ => cases hgs

/-! ### The handles of all incarnations -/

/-- The hart, and the ledger of one storage. -/
structure Handles (N : ℕ) (T V : Type) where
  kernel : Kernel N T (ℕ × V)
  ledger : Ledger V

/-- An event of the hart, which is about the token or the handle `i` where it
is about one of them, or the drop of a handle. -/
inductive Act (T V : Type)
  | hart (i : ℕ) (ev : Event T (ℕ × V))
  | drop (i : ℕ)

namespace Handles

def init : Handles N T V := ⟨.init, .empty⟩

def step (t : T) (h : Handles N T V) : Act T V → Option (Handles N T V)
  | .hart i ev => (h.kernel.step ev).bind fun k' =>
    (h.ledger.next t h.kernel i ev).map fun l' => ⟨k', l'⟩
  | .drop i => (h.ledger.drop i).map fun l' => ⟨h.kernel, l'⟩

/-- A handle that has resolved has done so with the output of its incarnation,
and no two with the same. -/
structure Own (h : Handles N T V) : Prop where
  own : ∀ i v, h.ledger.ticket i = .resolved v → v.1 = i ∧ h.ledger.output i = some v.2
  once : ∀ i j v w, h.ledger.ticket i = .resolved v → h.ledger.ticket j = .resolved w →
    v.1 = w.1 → i = j

/-- A handle that is polled after its future has returned resolves with the
output, and `TaskStorage::spawn` clears neither an output that a handle can
still ask for nor the waker of a live handle. -/
structure TickKept (t : T) (h : Handles N T V) (f : Frame N T (ℕ × V)) : Prop where
  delivered : ∀ w i is v, f.calling = some (.joinTake t w) → h.ledger.polls = i :: is →
    h.ledger.output i = some v → (h.kernel.shared.tasks t).join.result = some (i, v)
  output : f.calling = some (.storageResult t) → ∀ v,
    (h.kernel.shared.tasks t).join.result = some v → ¬(h.ledger.ticket v.1).Live
  waker : f.calling = some (.storageWaker t) → ∀ w,
    (h.kernel.shared.tasks t).join.waker = some w →
      ∃ i, h.ledger.registered = some i ∧ ¬(h.ledger.ticket i).Live

def Kept (t : T) (h : Handles N T V) (a : Act T V) : Prop :=
  ∀ i, a = .hart i .tick → ∀ f fs, h.kernel.frames = f :: fs → TickKept t h f

/-- The slot of `t` is used soundly. -/
def PollOk (t : T) (h : Handles N T V) (a : Act T V) : Prop :=
  ∀ i ev, a = .hart i ev → h.kernel.PollOk t ev

/-- `TaskStorage::spawn` clears `join.result` when the handle of the last
incarnation has resolved or was dropped. -/
def RespawnOk (t : T) (h : Handles N T V) (a : Act T V) : Prop :=
  ∀ i, a = .hart i .tick → ∀ f fs, h.kernel.frames = f :: fs →
    f.calling = some (.storageResult t) → ¬(h.ledger.ticket h.ledger.born).Live

/-- The storage and its ledger, as `Desk` sees them. -/
def desk (t : T) (h : Handles N T V) : Desk V :=
  ⟨h.kernel.epoch t, (h.kernel.shared.tasks t).join.result, h.ledger⟩

structure Inv (t : T) (h : Handles N T V) : Prop where
  staged : h.kernel.Staged t
  desk : (h.desk t).Ok
  value : ∀ e v, .run e (.storeResult t v) ∈ h.kernel.frames → v.1 = h.ledger.born
  polls : h.ledger.polls.length = (h.kernel.frames.filterMap (Frame.joining t)).length
  registered : h.ledger.registered.isSome = (h.kernel.shared.tasks t).join.waker.isSome

section Step

variable {s s' : Shared N T (ℕ × V)} {f : Frame N T (ℕ × V)} {ev : Event T (ℕ × V)}
  {fs gs : List (Frame N T (ℕ × V))} {t : T} {l l' : Ledger V}

omit [DecidableEq T] in
theorem work_calling {c : Call N T} {st : Stage} (hc : f.calling = some c)
    (hst : c.stage = some (t, st)) : f.work = f.polls ++ [(t, st)] := by
  rw [Frame.work, hc, Option.bind_some, hst]
  rfl

/-- The storage stands where its one worker is. -/
theorem epoch_calling {c : Call N T} {st : Stage} (hk : Kernel.Staged ⟨s, f :: fs⟩ t)
    (hc : f.calling = some c) (hst : c.stage = some (t, st)) :
    st.Ok (s.cell t) ∧ Kernel.epoch ⟨s, f :: fs⟩ t = epochOf (s.cell t) [st] := by
  have hwork := work_calling hc hst
  have hself : [f].flatMap Frame.work = f.polls ++ (some st).toList.map fun x => (t, x) := by
    rw [List.flatMap_singleton, hwork]
    rfl
  obtain ⟨hok, hepoch, -⟩ := hk.epoch_move s hwork hself
  exact ⟨hok, hepoch⟩

theorem joining_take {w : T} (h : f.calling = some (.joinTake t w)) : f.joining t = some w := by
  rw [Frame.joining, h, Option.bind_some]
  exact if_pos rfl

theorem joining_store {w : T} (h : f.calling = some (.joinStore t w)) : f.joining t = some w := by
  rw [Frame.joining, h, Option.bind_some]
  exact if_pos rfl

/-- Whoever is inside `JoinHandle::poll` polls a handle of the ledger. -/
theorem polls_ne_nil {w : T} (hlen : l.polls.length = ((f :: fs).filterMap (Frame.joining t)).length)
    (hf : f.joining t = some w) : l.polls ≠ [] := by
  rw [List.filterMap_cons_some hf, List.length_cons] at hlen
  exact List.ne_nil_of_length_pos (by omega)

/-- A step of the hart that meets both conditions is one that may happen. -/
theorem Inv.desk_next (hI : Inv t ⟨⟨s, f :: fs⟩, l⟩) (hok : Kernel.PollOk t ⟨s, f :: fs⟩ ev)
    (hre : ev = .tick → f.calling = some (.storageResult t) → ¬(l.ticket l.born).Live)
    (hn : Next s f ev s' gs) (he : JoinEffect t s f ev s' gs l l') :
    Desk.Next (Handles.desk t ⟨⟨s, f :: fs⟩, l⟩) (Handles.desk t ⟨⟨s', gs ++ fs⟩, l'⟩) := by
  have hstill : ∀ c, f.calling = some c → c ≠ .storageResult t → c ≠ .storageWrite t →
      Kernel.epoch ⟨s', gs ++ fs⟩ t = Kernel.epoch ⟨s, f :: fs⟩ t := fun c hc h1 h2 =>
    hI.staged.epoch_keep hok hn fun _ => Frame.not_edge_of_user (Frame.user_of_calling hc)
      (fun h => h1 (Option.some.inj h)) fun h => h2 (Option.some.inj h)
  have hkeep : Kernel.epoch ⟨s', gs ++ fs⟩ t = Kernel.epoch ⟨s, f :: fs⟩ t →
      (s'.tasks t).join.result = (s.tasks t).join.result →
      Handles.desk t ⟨⟨s', gs ++ fs⟩, l'⟩ = { Handles.desk t ⟨⟨s, f :: fs⟩, l⟩ with ledger := l' } :=
    fun hepoch hres => by rw [Handles.desk, Handles.desk, hepoch, hres]
  cases he with
  | keep hno hres _ hl =>
    rw [hkeep (hI.staged.epoch_keep hok hn hno) hres]
    rcases hl with ⟨rfl, -⟩ | ⟨rfl, -⟩
    · exact .keep
    · exact .unregister
  | spawn i hev hjoin _ hl =>
    rw [hkeep (hI.staged.epoch_keep hok hn fun h => absurd h hev) (by rw [hjoin])]
    exact .spawn i hl
  | join i w hev hjoin _ _ hl =>
    rw [hkeep (hI.staged.epoch_keep hok hn fun h => absurd h hev) (by rw [hjoin])]
    exact .join i hl
  | take w v hc hv hjoin _ hl =>
    have hdesk : Handles.desk t ⟨⟨s', gs ++ fs⟩, l'⟩ =
        { Handles.desk t ⟨⟨s, f :: fs⟩, l⟩ with result := none, ledger := l.take v } := by
      rw [Handles.desk, Handles.desk, hstill _ hc (by simp) (by simp), hjoin, hl]
    rw [hdesk]
    exact .take v hv (polls_ne_nil hI.polls (joining_take hc))
  | store w hc hjoin _ hl =>
    rw [hkeep (hstill _ hc (by simp) (by simp)) (by rw [hjoin]), hl]
    exact .store (polls_ne_nil hI.polls (joining_store hc))
  | clear hev hc hjoin hgs hl =>
    have hwork := work_calling hc rfl
    have hwork' : gs.flatMap Frame.work =
        f.polls ++ (some Stage.waker).toList.map fun x => (t, x) := by
      rw [hgs, List.flatMap_singleton, Frame.work_setCall (Frame.user_of_calling hc)]
      rfl
    obtain ⟨hvac, hold, hnew⟩ := hI.staged.epoch_move s' hwork hwork'
    have hdone : Kernel.epoch ⟨s, f :: fs⟩ t = .done := by
      rw [hold]
      rcases hvac.1 with h | h <;> simp [epochOf, h]
    have hdesk : Handles.desk t ⟨⟨s', gs ++ fs⟩, l'⟩ =
        { Handles.desk t ⟨⟨s, f :: fs⟩, l⟩ with epoch := .cleared, result := none } := by
      rw [Handles.desk, Handles.desk, hnew, hjoin, hl]
      rfl
    rw [hdesk]
    exact .clear hdone (hre hev hc)
  | write hc hjoin hslot hgs hl =>
    have hwork := work_calling hc rfl
    have hwork' : gs.flatMap Frame.work =
        f.polls ++ (none : Option Stage).toList.map fun x => (t, x) := by
      rw [hgs, List.flatMap_singleton, Frame.work_setCall (Frame.user_of_calling hc)]
      rfl
    obtain ⟨-, hold, hnew⟩ := hI.staged.epoch_move s' hwork hwork'
    have hpending : Kernel.epoch ⟨s', gs ++ fs⟩ t = .pending := by
      rw [hnew]
      simp [epochOf, hslot]
    have hdesk : Handles.desk t ⟨⟨s', gs ++ fs⟩, l'⟩ =
        { Handles.desk t ⟨⟨s, f :: fs⟩, l⟩ with epoch := .pending, ledger := l.write } := by
      rw [Handles.desk, Handles.desk, hpending, hjoin, hl]
    rw [hdesk]
    exact .write hold
  | finish e v hf hjoin hcell hgs hl =>
    have hvalue : v.1 = l.born := hI.value e v (hf ▸ List.mem_cons_self)
    have hwork : f.work = [] ++ [(t, .storeResult)] := by
      rw [hf]
      rfl
    have hwork' : gs.flatMap Frame.work =
        [] ++ (some Stage.storeNull).toList.map fun x => (t, x) := by
      rw [hgs]
      rfl
    obtain ⟨hfin, hold, hnew⟩ := hI.staged.epoch_move s' hwork hwork'
    have hdone : Kernel.epoch ⟨s', gs ++ fs⟩ t = .done := by
      rw [hnew, hcell]
      simp [epochOf, hfin.1]
    have hdesk : Handles.desk t ⟨⟨s', gs ++ fs⟩, l'⟩ = ⟨.done, some v, l.finish v⟩ := by
      rw [Handles.desk, hdone, hjoin, hl]
    rw [hdesk]
    exact .finish v hold hvalue

/-- The numbering goes on only when the future is written, and nobody is past
its `Ready` then. -/
theorem Inv.value_next (hI : Inv t ⟨⟨s, f :: fs⟩, l⟩) (hn : Next s f ev s' gs) {i : ℕ}
    (hl : l.next t ⟨s, f :: fs⟩ i ev = some l') (he : JoinEffect t s f ev s' gs l l') {e : Fin N}
    {v : ℕ × V} (hg : .run e (.storeResult t v) ∈ gs ++ fs) : v.1 = l'.born := by
  have hold : l'.born = l.born → v.1 = l'.born := by
    intro hborn
    rw [hborn]
    rcases List.mem_append.mp hg with hg | hg
    · rcases hn.storeResult_frame hg with hf | ⟨hev, hf⟩
      · exact hI.value e v (hf ▸ List.mem_cons_self)
      · subst hev
        subst hf
        have hl : (if t = t ∧ v.1 ≠ l.born then none else some l) = some l' := hl
        by_contra hne
        rw [if_pos ⟨rfl, hne⟩] at hl
        cases hl
    · exact hI.value e v (List.mem_cons_of_mem _ hg)
  cases he with
  | keep _ _ _ hl =>
    rcases hl with ⟨rfl, -⟩ | ⟨rfl, -⟩
    · exact hold rfl
    · exact hold rfl
  | spawn i _ _ _ hl =>
    obtain ⟨-, rfl⟩ := Ledger.spawn_some hl
    exact hold rfl
  | join i w _ _ _ _ hl =>
    obtain ⟨-, rfl⟩ := Ledger.join_some hl
    exact hold rfl
  | take w v _ _ _ _ hl => exact hold (by rw [hl, l.take_born])
  | store w _ _ _ hl => exact hold (by rw [hl, l.store_born])
  | clear _ _ _ _ hl => exact hold (by rw [hl])
  | finish q v _ _ _ _ hl => exact hold (by rw [hl]; rfl)
  | write hc _ _ hgs _ =>
    exfalso
    have hwork := work_calling hc rfl
    have hwork' : gs.flatMap Frame.work =
        f.polls ++ (none : Option Stage).toList.map fun x => (t, x) := by
      rw [hgs, List.flatMap_singleton, Frame.work_setCall (Frame.user_of_calling hc)]
      rfl
    obtain ⟨-, -, hnone⟩ := hI.staged.move hwork hwork'
    have hmem : (t, Stage.storeResult) ∈ (gs ++ fs).flatMap Frame.work :=
      List.mem_flatMap.mpr ⟨_, hg, List.mem_singleton_self _⟩
    rw [← mem_stagesOf, hnone] at hmem
    cases hmem

/-- The handles being polled are those of the activations inside
`JoinHandle::poll`. -/
theorem Inv.polls_next (hI : Inv t ⟨⟨s, f :: fs⟩, l⟩) (he : JoinEffect t s f ev s' gs l l') :
    l'.polls.length = ((gs ++ fs).filterMap (Frame.joining t)).length := by
  have hlen : l.polls.length = (f.joining t).toList.length + (fs.filterMap (Frame.joining t)).length := by
    have hlen : l.polls.length = ((f :: fs).filterMap (Frame.joining t)).length := hI.polls
    rw [hlen, show f :: fs = [f] ++ fs from rfl, List.filterMap_append, List.length_append,
      filterMap_singleton]
  rw [List.filterMap_append, List.length_append]
  have hother : ∀ c, f.calling = some c → c.joining t = none → (f.joining t).toList.length = 0 :=
    fun c hc hj => by
      rw [Frame.joining, hc, Option.bind_some, hj]
      rfl
  cases he with
  | keep _ _ hj hl =>
    rw [hj]
    rcases hl with ⟨rfl, -⟩ | ⟨rfl, -⟩
    · exact hlen
    · exact hlen
  | spawn i _ _ hj hl =>
    obtain ⟨-, rfl⟩ := Ledger.spawn_some hl
    rw [hj]
    exact hlen
  | join i w _ _ hf hj hl =>
    obtain ⟨-, rfl⟩ := Ledger.join_some hl
    rw [hf] at hlen
    rw [hj]
    simp only [Option.toList_none, List.length_nil, List.length_cons] at hlen ⊢
    omega
  | take w v hc _ _ hj hl =>
    rw [joining_take hc] at hlen
    rw [hl, l.take_polls, hj, List.length_tail]
    simp only [Option.toList_some, List.length_cons, List.length_nil] at hlen ⊢
    omega
  | store w hc _ hj hl =>
    rw [joining_store hc] at hlen
    rw [hl, l.store_polls, hj, List.length_tail]
    simp only [Option.toList_some, List.length_cons, List.length_nil] at hlen ⊢
    omega
  | clear _ hc _ hgs hl =>
    rw [hgs, filterMap_singleton, Frame.joining_setCall t (Frame.user_of_calling hc), hl, hlen,
      hother _ hc rfl]
    rfl
  | write hc _ _ hgs hl =>
    rw [hgs, filterMap_singleton, Frame.joining_setCall t (Frame.user_of_calling hc), hl]
    rw [hother _ hc rfl] at hlen
    exact hlen
  | finish q v hf _ _ hgs hl =>
    rw [hf] at hlen
    rw [hgs, hl]
    exact hlen

/-- The handle that has registered is the one whose waker lies in `join.waker`. -/
theorem Inv.registered_next (hI : Inv t ⟨⟨s, f :: fs⟩, l⟩) (he : JoinEffect t s f ev s' gs l l') :
    l'.registered.isSome = (s'.tasks t).join.waker.isSome := by
  have hreg : l.registered.isSome = (s.tasks t).join.waker.isSome := hI.registered
  cases he with
  | keep _ _ _ hl =>
    rcases hl with ⟨rfl, hwaker⟩ | ⟨rfl, hwaker⟩
    · rw [hwaker, hreg]
    · rw [hwaker]
      rfl
  | spawn i _ hjoin _ hl =>
    obtain ⟨-, rfl⟩ := Ledger.spawn_some hl
    rw [hjoin]
    exact hreg
  | join i w _ hjoin _ _ hl =>
    obtain ⟨-, rfl⟩ := Ledger.join_some hl
    rw [hjoin]
    exact hreg
  | take w v _ _ hjoin _ hl =>
    rw [hl, hjoin, l.take_registered]
    exact hreg
  | store w hc hjoin _ hl =>
    obtain ⟨i, is, his⟩ := List.exists_cons_of_ne_nil (polls_ne_nil hI.polls (joining_store hc))
    rw [hl, hjoin, Ledger.store_cons his]
    rfl
  | clear _ _ hjoin _ hl =>
    rw [hl, hjoin]
    exact hreg
  | write _ hjoin _ _ hl =>
    rw [hl, hjoin]
    exact hreg
  | finish q v _ hjoin _ _ hl =>
    rw [hl, hjoin]
    exact hreg

end Step

theorem step_hart {t : T} {h h' : Handles N T V} {i : ℕ} {ev : Event T (ℕ × V)}
    (hs : step t h (.hart i ev) = some h') :
    ∃ f fs s' gs, h = ⟨⟨h.kernel.shared, f :: fs⟩, h.ledger⟩ ∧ h' = ⟨⟨s', gs ++ fs⟩, h'.ledger⟩ ∧
      Next h.kernel.shared f ev s' gs ∧
      h.ledger.next t ⟨h.kernel.shared, f :: fs⟩ i ev = some h'.ledger := by
  obtain ⟨k', hk', hs⟩ := Option.bind_eq_some_iff.mp hs
  obtain ⟨l', hl', rfl⟩ := Option.map_eq_some_iff.mp hs
  obtain ⟨f, fs, s', gs, hk, rfl, hn⟩ := Kernel.step_next hk'
  refine ⟨f, fs, s', gs, ?_, rfl, hn, ?_⟩
  · rw [← hk]
  · rw [← hk]
    exact hl'

/-- A run that meets both conditions keeps the outputs with their handles. -/
theorem Inv.next {t : T} {h h' : Handles N T V} {a : Act T V} (hI : Inv t h) (hok : PollOk t h a)
    (hre : RespawnOk t h a) (hs : step t h a = some h') : Inv t h' := by
  cases a with
  | hart i ev =>
    obtain ⟨f, fs, s', gs, hh, hh', hn, hl⟩ := step_hart hs
    have hpoll : Kernel.PollOk t ⟨h.kernel.shared, f :: fs⟩ ev := by
      have hpoll := hok i ev rfl
      rwa [hh] at hpoll
    have hrespawn : ev = .tick → f.calling = some (.storageResult t) →
        ¬(h.ledger.ticket h.ledger.born).Live := by
      rintro rfl hc
      exact hre i rfl f fs (by rw [hh]) hc
    have he := hn.joinEffect hl
    rw [hh] at hI
    rw [hh']
    exact ⟨(hI.staged.next hpoll hn).1, hI.desk.next (hI.desk_next hpoll hrespawn hn he),
      fun e v hg => hI.value_next hn hl he hg, hI.polls_next he, hI.registered_next he⟩
  | drop i =>
    obtain ⟨l', hl', rfl⟩ := Option.map_eq_some_iff.mp hs
    have hdesk : Desk.Next (h.desk t) (Handles.desk t ⟨h.kernel, l'⟩) := .drop i hl'
    obtain ⟨-, rfl⟩ := Ledger.drop_some hl'
    exact ⟨hI.staged, hI.desk.next hdesk, hI.value, hI.polls, hI.registered⟩

theorem Inv.own {t : T} {h : Handles N T V} (hI : Inv t h) : Own h where
  own := hI.desk.own
  once i j v w hv hw he := by
    have hi : v.1 = i := (hI.desk.own i v hv).1
    have hj : w.1 = j := (hI.desk.own j w hw).1
    rw [← hi, ← hj, he]

/-- Nothing is lost at a step exactly when the respawn it may be meets the
condition. -/
theorem Inv.respawnOk_iff {t : T} {h : Handles N T V} (hI : Inv t h) (a : Act T V) :
    RespawnOk t h a ↔ Kept t h a := by
  constructor
  · intro hre i ha f fs hfr
    have hstaged : Kernel.Staged ⟨h.kernel.shared, f :: fs⟩ t := by
      rw [← hfr]
      exact hI.staged
    refine ⟨fun w j js v hc hpolls hout => ?_, fun hc v hv => ?_, fun hc w hw => ?_⟩
    · have hmem : j ∈ h.ledger.polls := by
        rw [hpolls]
        exact List.mem_cons_self
      exact hI.desk.delivered hmem hout
    · have hborn : v.1 = h.ledger.born := (hI.desk.result hv).1
      rw [hborn]
      exact hre i ha f fs hfr hc
    · have hcleared : h.kernel.epoch t = .cleared := by
        obtain ⟨-, hepoch⟩ := epoch_calling hstaged hc rfl
        rw [← hfr] at hepoch
        exact hepoch
      have hsome := hI.registered
      rw [hw] at hsome
      obtain ⟨j, hj⟩ := Option.isSome_iff_exists.mp hsome
      exact ⟨j, hj, hI.desk.unregistered hcleared j⟩
  · intro hkept i ha f fs hfr hc hlive
    have hstaged : Kernel.Staged ⟨h.kernel.shared, f :: fs⟩ t := by
      rw [← hfr]
      exact hI.staged
    obtain ⟨hvac, hepoch⟩ := epoch_calling hstaged hc rfl
    have hdone : h.kernel.epoch t = .done := by
      rw [← hfr] at hepoch
      refine hepoch.trans ?_
      rcases hvac.1 with hslot | hslot <;> simp [epochOf, hslot]
    rcases hI.desk.done hdone with ⟨v, hv, -⟩ | ⟨-, hno⟩
    · exact (hkept i ha f fs hfr).output hc _ hv hlive
    · exact hno hlive

theorem init_inv (t : T) : Inv t (init : Handles N T V) where
  staged := Kernel.init_staged t
  desk := Desk.init_ok
  value _ _ h := by cases List.mem_singleton.mp h
  polls := rfl
  registered := rfl

/-- A task at priority 0 is spawned, and its future returns at its first poll;
then the storage is spawned again and the second future returns. The handle of
the first is polled after that, for the first time. -/
def spawnedAgain : List (Act Unit Unit) :=
  let incarnation (i : ℕ) : List (Event Unit (ℕ × Unit)) :=
    List.flatten [Event.spawnTask ⟨0⟩ (), [.setMie true], Event.machineSoft,
      [.tick, .ready (i, ()), .tick, .tick, .ret, .tick, .tick], List.replicate 5 .tick]
  (incarnation 1).map (.hart 1) ++ (incarnation 2).map (.hart 2) ++
    [.hart 1 (.call (.joinPoll () ())), .hart 1 .tick]

end Handles
end RtAsync

/-
# One incarnation of a task

What steps do to one task `t`: to the fields of its header and its join state
(`TaskEffect`), to who has it in hand (`Kernel.InHand`), and to the pledges of
a token for it (`pledges`). From these, what holds while its storage is
spawned once: nobody but the executor that `Spawner::spawn` was asked for has
it in hand, no two activations are past its dequeue at once, and it stays
spawned until the one that polls it despawns it (`Kernel.Once`). Of a storage
that is spawned again, but only when nobody has the task in hand any more
(`Kernel.SpawnsFresh`), one incarnation at most is about (`Kernel.Sole`).

Key definitions: `Kernel.InHand`, `TaskEffect`, `pledges`, `Phase`,
`Kernel.Once`, `Kernel.SpawnsFresh`, `Kernel.Sole`.
Key theorems: `Next.taskEffect`, `Next.inHand`, `Next.pledges_le`,
`Kernel.Once.next`, `Next.tickets`, `Kernel.Sole.next`.
-/
import RtAsync.Executor.Coherence

namespace RtAsync

open Function (update update_self update_of_ne)

variable {N : ℕ} {T V : Type}

/-! ### The fields of a task -/

/-- `SPAWNED`, the join state and `poll_fn` are the same. -/
structure TaskInfo.Same (i i' : TaskInfo N T V) : Prop where
  spawned : i'.state.spawned = i.state.spawned
  join : i'.join = i.join
  pollFn : i'.pollFn = i.pollFn

theorem TaskInfo.Same.refl (i : TaskInfo N T V) : i.Same i := ⟨rfl, rfl, rfl⟩

theorem TaskInfo.Same.trans {i i' i'' : TaskInfo N T V} (h : i.Same i') (h' : i'.Same i'') :
    i.Same i'' :=
  ⟨h'.spawned.trans h.spawned, h'.join.trans h.join, h'.pollFn.trans h.pollFn⟩

/-- The task that a `TaskStorage::spawn` in progress works on. -/
def Call.storing : Call N T → Option T
  | .storageFlag t => some t
  | .storageResult t => some t
  | .storageWaker t => some t
  | .storageFn t => some t
  | .storageWrite t => some t
  | _ => none

def Frame.storing (f : Frame N T V) : Option T := f.calling.bind Call.storing

/-- The task that a `TaskStorage::spawn` has set `SPAWNED` of. -/
def Call.filing : Call N T → Option T
  | .storageFlag _ => none
  | c => c.storing

def Frame.filing (f : Frame N T V) : Option T := f.calling.bind Call.filing

theorem Frame.storing_of_filing {f : Frame N T V} {t : T} (h : f.filing = some t) :
    f.storing = some t := by
  obtain ⟨c, hc, hf⟩ := Option.bind_eq_some_iff.mp h
  rw [storing, hc, Option.bind_some]
  cases c with
  | storageFlag => cases hf
  | _ => exact hf

/-- What a step can do to these fields of `t`. -/
inductive TaskEffect (f : Frame N T V) (t : T) (i i' : TaskInfo N T V) : Prop
  | keep : i.Same i' → TaskEffect f t i i'
  | storage : f.storing = some t → (i.state.spawned = true → i'.state.spawned = true) →
      i'.pollFn = i.pollFn ∨ f.filing = some t → TaskEffect f t i i'
  | take (w : T) : f.calling = some (.joinTake t w) →
      i.Same { i' with join := i.join } → i'.join = { i.join with result := none } →
      TaskEffect f t i i'
  | store (w : T) : f.calling = some (.joinStore t w) →
      i.Same { i' with join := i.join } → i'.join = { i.join with waker := some w } →
      TaskEffect f t i i'
  | result (q : Fin N) (v : V) : f = .run q (.storeResult t v) →
      i.Same { i' with join := i.join } → i'.join = { i.join with result := some v } →
      TaskEffect f t i i'
  | exited (q : Fin N) : f = .run q (.storeExited t) →
      i.Same { i' with pollFn := i.pollFn } → i'.pollFn = some .pollExited → TaskEffect f t i i'
  | notify (q : Fin N) : f = .run q (.notify t) → i'.state.spawned = false →
      i'.join = { i.join with waker := none } → i'.pollFn = i.pollFn → TaskEffect f t i i'

theorem TaskEffect.trans_same {f : Frame N T V} {t : T} {i i' i'' : TaskInfo N T V}
    (h : TaskEffect f t i i') (hs : i'.Same i'') : TaskEffect f t i i'' := by
  obtain ⟨hsp, hj, hfn⟩ := hs
  cases h with
  | keep h => exact .keep (h.trans ⟨hsp, hj, hfn⟩)
  | storage h hsp' hfn' =>
    exact .storage h (fun hi => hsp.trans (hsp' hi)) (hfn'.imp_left hfn.trans)
  | take w hc h hj' => exact .take w hc (h.trans ⟨hsp, rfl, hfn⟩) (hj.trans hj')
  | store w hc h hj' => exact .store w hc (h.trans ⟨hsp, rfl, hfn⟩) (hj.trans hj')
  | result q v hf h hj' => exact .result q v hf (h.trans ⟨hsp, rfl, hfn⟩) (hj.trans hj')
  | exited q hf h hfn' => exact .exited q hf (h.trans ⟨hsp, hj, rfl⟩) (hfn.trans hfn')
  | notify q hf hsp' hj' hfn' =>
    exact .notify q hf (hsp.trans hsp') (hj.trans hj') (hfn.trans hfn')

variable [DecidableEq T]

theorem Shared.setTask_self (s : Shared N T V) (t : T) (i : TaskInfo N T V) :
    (s.setTask t i).tasks t = i := by
  rw [setTask]
  exact update_self t i s.tasks

/-- Writing the header of `u` has an effect on `u` only. -/
theorem TaskEffect.of_write (s : Shared N T V) {f : Frame N T V} {u : T} (i : TaskInfo N T V)
    (h : TaskEffect f u (s.tasks u) i) (t : T) :
    TaskEffect f t (s.tasks t) ((s.setTask u i).tasks t) := by
  rw [show (s.setTask u i).tasks = update s.tasks u i from rfl]
  by_cases htu : t = u
  · subst htu
    rwa [update_self]
  · rw [update_of_ne htu]
    exact .keep (.refl _)

theorem TaskInfo.Same.of_write (s : Shared N T V) {u : T} (i : TaskInfo N T V)
    (h : (s.tasks u).Same i) (t : T) : (s.tasks t).Same ((s.setTask u i).tasks t) := by
  rw [show (s.setTask u i).tasks = update s.tasks u i from rfl]
  by_cases htu : t = u
  · subst htu
    rwa [update_self]
  · rw [update_of_ne htu]
    exact .refl _

theorem Shared.runEnqueue_same (s : Shared N T V) (u t : T) :
    (s.tasks t).Same ((s.runEnqueue u).1.tasks t) :=
  .of_write s { s.tasks u with state := (s.tasks u).state.runEnqueue.1 } ⟨rfl, rfl, rfl⟩ t

theorem Shared.pushed_same (s : Shared N T V) (e : Fin N) (u : T) (bm : PriorityBitmap 64) (t : T) :
    (s.tasks t).Same ((s.pushed e u bm).tasks t) :=
  .of_write s { s.tasks u with executorPtr := some e } ⟨rfl, rfl, rfl⟩ t

theorem Shared.wakeLocked_same {s s' : Shared N T V} {w : T} (h : s.wakeLocked w = some s') (t : T) :
    (s.tasks t).Same (s'.tasks t) := by
  rcases Shared.wakeLocked_some h with ⟨-, rfl⟩ | ⟨e, -, ⟨-, rfl⟩ | ⟨-, bm, -, rfl⟩⟩
  · exact .refl _
  · exact s.runEnqueue_same w t
  · exact (s.runEnqueue_same w t).trans (Shared.pushed_same _ e w bm t)

theorem notifyLocked_taskEffect {s s' : Shared N T V} {q : Fin N} {u : T}
    (h : s.notifyLocked u = some s') (t : T) :
    TaskEffect (.run q (.notify u)) t (s.tasks t) (s'.tasks t) := by
  have hd : TaskEffect (.run q (.notify u)) t (s.tasks t) ((s.despawned u).tasks t) := by
    refine .of_write s _ ?_ t
    exact .notify q rfl rfl rfl rfl
  rcases Shared.notifyLocked_some h with ⟨-, rfl⟩ | ⟨w, -, hw⟩
  · exact hd
  · exact hd.trans_same (Shared.wakeLocked_same hw t)

theorem callStep_taskEffect {s s' : Shared N T V} {f : Frame N T V} {c : Call N T}
    {c' : Option (Call N T)} (hu : f.user = some (some c)) (h : callStep s c = some (s', c'))
    (t : T) : TaskEffect f t (s.tasks t) (s'.tasks t) := by
  have hc : f.calling = some c := Frame.calling_eq hu
  have hstore : ∀ u, c.storing = some u → f.storing = some u := fun u hs => by
    rw [Frame.storing, hc, Option.bind_some, hs]
  have hfile : ∀ u, c.filing = some u → f.filing = some u := fun u hs => by
    rw [Frame.filing, hc, Option.bind_some, hs]
  cases callStep_next h with
  | @wakeSkip u => exact .keep (s.runEnqueue_same u t)
  | @wakeFlag u => exact .keep (s.runEnqueue_same u t)
  | @spawnSkip u => exact .keep (s.runEnqueue_same u t)
  | @spawnFlag u => exact .keep (s.runEnqueue_same u t)
  | @wakePush u e bm => exact .keep (s.pushed_same e u bm t)
  | @spawnPush u e bm => exact .keep (s.pushed_same e u bm t)
  | joinTake w =>
    refine .of_write s _ ?_ t
    exact .take w hc ⟨rfl, rfl, rfl⟩ rfl
  | joinStore u w =>
    refine .of_write s _ ?_ t
    exact .store w hc ⟨rfl, rfl, rfl⟩ rfl
  | storageBusy =>
    refine .of_write s _ ?_ t
    exact .storage (hstore _ rfl) (fun _ => rfl) (Or.inl rfl)
  | storageFlag =>
    refine .of_write s _ ?_ t
    exact .storage (hstore _ rfl) (fun _ => rfl) (Or.inl rfl)
  | storageResult u =>
    refine .of_write s _ ?_ t
    exact .storage (hstore u rfl) id (Or.inl rfl)
  | storageWaker u =>
    refine .of_write s _ ?_ t
    exact .storage (hstore u rfl) id (Or.inl rfl)
  | storageFn u =>
    refine .of_write s _ ?_ t
    exact .storage (hstore u rfl) id (Or.inr (hfile u rfl))
  | storageWrite u =>
    refine .of_write s _ ?_ t
    exact .storage (hstore u rfl) id (Or.inl rfl)
  | _ => exact .keep (.refl _)

theorem Next.taskEffect {s s' : Shared N T V} {f : Frame N T V} {ev : Event T V}
    {gs : List (Frame N T V)} (h : Next s f ev s' gs) (t : T) :
    TaskEffect f t (s.tasks t) (s'.tasks t) := by
  cases h with
  | call hu hc => exact callStep_taskEffect hu hc t
  | begin hu hc =>
    obtain ⟨⟨tk, rfl⟩, -⟩ := callStart_shared hc
    exact .keep (.refl _)
  | dequeue =>
    refine .of_write s _ ?_ t
    exact .keep ⟨rfl, rfl, rfl⟩
  | ready =>
    refine .of_write s _ ?_ t
    exact .keep ⟨rfl, rfl, rfl⟩
  | storeResult e u v =>
    refine .of_write s _ ?_ t
    exact .result e v rfl ⟨rfl, rfl, rfl⟩ rfl
  | storeNull =>
    refine .of_write s _ ?_ t
    exact .keep ⟨rfl, rfl, rfl⟩
  | dropInPlace =>
    refine .of_write s _ ?_ t
    exact .keep ⟨rfl, rfl, rfl⟩
  | storeExited e u =>
    refine .of_write s _ ?_ t
    exact .exited e rfl ⟨rfl, rfl, rfl⟩ rfl
  | notify hn => exact notifyLocked_taskEffect hn t
  | _ => exact .keep (.refl _)

/-! ### Who has a task in hand -/

/-- The task that a call enqueues, and the executor it acts for. -/
def Call.target : Call N T → Option (T × Fin N)
  | .wakeFlag t e => some (t, e)
  | .wakePush t e => some (t, e)
  | .spawnFlag e t => some (t, e)
  | .spawnPush e t => some (t, e)
  | _ => none

def Frame.target (f : Frame N T V) : Option (T × Fin N) := f.calling.bind Call.target

/-- The task that a call wakes, up to the access that flags it. -/
def Call.waking : Call N T → Option T
  | .wake t => some t
  | .wakeFlag t _ => some t
  | _ => none

/-- The task that `Executor::run` has dequeued. -/
def RunPc.task : RunPc N T V → Option T
  | .start => none
  | .top => none
  | .got t => some t
  | .poll t _ => some t
  | .storeResult t _ => some t
  | .storeNull t => some t
  | .dropInPlace t _ => some t
  | .storeExited t => some t
  | .notify t => some t

def Frame.serving : Frame N T V → Option (T × Fin N)
  | .run e r => r.task.map fun t => (t, e)
  | _ => none

/-- The task that an activation is inside `TaskStorage::poll` of. -/
def Frame.within : Frame N T V → Option T
  | .run _ (.got _) => none
  | .run _ r => r.task
  | _ => none

/-- `e` has the task linked or as its back-pointer, a call enqueues it on `e`,
or `e` has dequeued it. -/
def Kernel.InHand (k : Kernel N T V) (t : T) (e : Fin N) : Prop :=
  k.shared.ptr t = some e ∨ t ∈ k.shared.queue e ∨
    (∃ f ∈ k.frames, f.target = some (t, e)) ∨ ∃ f ∈ k.frames, f.serving = some (t, e)

omit [DecidableEq T] in
theorem Frame.setCall_serving (f : Frame N T V) (c : Option (Call N T)) :
    (f.setCall c).serving = f.serving := by
  unfold setCall
  split <;> rfl

omit [DecidableEq T] in
theorem Frame.setCall_within (f : Frame N T V) (c : Option (Call N T)) :
    (f.setCall c).within = f.within := by
  unfold setCall
  split <;> rfl

omit [DecidableEq T] in
theorem Frame.target_setCall {f : Frame N T V} {c : Option (Call N T)} (h : f.user = some c)
    (c' : Option (Call N T)) : (f.setCall c').target = c'.bind Call.target := by
  rw [target, setCall_calling h]

omit [DecidableEq T] in
theorem Frame.target_of_push {f : Frame N T V} {t : T} {e : Fin N} (h : f.push = some (t, e)) :
    f.target = some (t, e) := by
  obtain ⟨c, hc, hp⟩ := Option.bind_eq_some_iff.mp h
  rw [target, hc, Option.bind_some]
  cases c with
  | wakePush => exact hp
  | spawnPush => exact hp
  | _ => cases hp

omit [DecidableEq T] in
/-- An activation past the dequeue of a task serves it. -/
theorem Frame.serving_of_within {f : Frame N T V} {t : T} (h : f.within = some t) :
    ∃ e, f.serving = some (t, e) ∧ f.running = some e := by
  cases f with
  | run e r =>
    refine ⟨e, ?_, rfl⟩
    cases r with
    | got => cases h
    | _ => exact congrArg (Option.map fun t => (t, e)) h
  | _ => cases h

/-- The target of a call is that of the access before it, or what `wake_task`
reads in the back-pointer. -/
theorem callStep_target {s s' : Shared N T V} {c : Call N T} {c' : Option (Call N T)} {t : T}
    {e : Fin N} (h : callStep s c = some (s', c')) (ht : c'.bind Call.target = some (t, e)) :
    c.target = some (t, e) ∨ s.ptr t = some e := by
  cases callStep_next h with
  | wake he =>
    obtain ⟨rfl, rfl⟩ := Prod.mk.inj (Option.some.inj ht)
    exact Or.inr he
  | wakeFlag => exact Or.inl ht
  | spawnFlag => exact Or.inl ht
  | _ => cases ht

theorem callStart_target {s s' : Shared N T V} {r : Request T} {c : Call N T} {t : T} {e : Fin N}
    (h : callStart s r = some (s', c)) (ht : c.target = some (t, e)) : r = .spawn ⟨e⟩ t := by
  cases callStart_next h with
  | spawn =>
    obtain ⟨rfl, rfl⟩ := Prod.mk.inj (Option.some.inj ht)
    rfl
  | _ => cases ht

theorem Next.target {s s' : Shared N T V} {f g : Frame N T V} {ev : Event T V}
    {gs : List (Frame N T V)} {t : T} {e : Fin N} (h : Next s f ev s' gs) (hg : g ∈ gs)
    (ht : g.target = some (t, e)) :
    f.target = some (t, e) ∨ s.ptr t = some e ∨ ev = .call (.spawn ⟨e⟩ t) := by
  rcases h.mem_frames hg with rfl | rfl | rfl | rfl
  · exact Or.inl ht
  · cases ht
  · cases ht
  cases h with
  | call hu hc =>
    rw [Frame.target_setCall hu] at ht
    rw [Frame.target, Frame.calling_eq hu]
    exact (callStep_target hc ht).imp_right Or.inl
  | begin hu hc =>
    rw [Frame.target_setCall hu] at ht
    exact Or.inr (Or.inr (congrArg Event.call (callStart_target hc ht)))
  | setMie => exact Or.inl ht
  | external => exact Or.inl ht
  | clear sys => cases sys <;> cases ht
  | _ => cases ht

theorem Next.serving {s s' : Shared N T V} {f g : Frame N T V} {ev : Event T V}
    {gs : List (Frame N T V)} {t : T} {e : Fin N} (h : Next s f ev s' gs) (hg : g ∈ gs)
    (ht : g.serving = some (t, e)) : f.serving = some (t, e) ∨ t ∈ s.queue e := by
  rcases h.mem_frames hg with rfl | rfl | rfl | rfl
  · exact Or.inl ht
  · cases ht
  · cases ht
  cases h with
  | call hu hc =>
    rw [Frame.setCall_serving] at ht
    exact Or.inl ht
  | begin hu hc =>
    rw [Frame.setCall_serving] at ht
    exact Or.inl ht
  | clear sys => cases sys <;> cases ht
  | dequeue hq =>
    obtain ⟨rfl, rfl⟩ := Prod.mk.inj (Option.some.inj ht)
    exact Or.inr (hq ▸ List.mem_cons_self)
  | setMie => exact Or.inl ht
  | external => exact Or.inl ht
  | gotPoll => exact Or.inl ht
  | ready => exact Or.inl ht
  | storeResult => exact Or.inl ht
  | storeNull => exact Or.inl ht
  | dropInPlace => exact Or.inl ht
  | storeExited => exact Or.inl ht
  | _ => cases ht

/-- `TaskStorage::poll` is entered by reading `poll_fn`. -/
theorem Next.within {s s' : Shared N T V} {f g : Frame N T V} {ev : Event T V}
    {gs : List (Frame N T V)} {t : T} (h : Next s f ev s' gs) (hg : g ∈ gs)
    (ht : g.within = some t) : f.within = some t ∨
      ((∃ e, f = .run e (.got t)) ∧ (s.tasks t).pollFn = some .poll) := by
  rcases h.mem_frames hg with rfl | rfl | rfl | rfl
  · exact Or.inl ht
  · cases ht
  · cases ht
  cases h with
  | call hu hc =>
    rw [Frame.setCall_within] at ht
    exact Or.inl ht
  | begin hu hc =>
    rw [Frame.setCall_within] at ht
    exact Or.inl ht
  | clear sys => cases sys <;> cases ht
  | gotPoll hfn =>
    obtain rfl := Option.some.inj ht
    exact Or.inr ⟨⟨_, rfl⟩, hfn⟩
  | setMie => exact Or.inl ht
  | external => exact Or.inl ht
  | ready => exact Or.inl ht
  | storeResult => exact Or.inl ht
  | storeNull => exact Or.inl ht
  | dropInPlace => exact Or.inl ht
  | storeExited => exact Or.inl ht
  | _ => cases ht

/-- A task comes into the hands of an executor by `Spawner::spawn` only. -/
theorem Next.inHand {s s' : Shared N T V} {f : Frame N T V} {ev : Event T V}
    {fs gs : List (Frame N T V)} {t : T} {e : Fin N} (h : Next s f ev s' gs)
    (ht : Kernel.InHand ⟨s', gs ++ fs⟩ t e) :
    Kernel.InHand ⟨s, f :: fs⟩ t e ∨ ev = .call (.spawn ⟨e⟩ t) := by
  have htarget : f.target = some (t, e) → Kernel.InHand ⟨s, f :: fs⟩ t e := fun hf =>
    Or.inr (Or.inr (Or.inl ⟨f, List.mem_cons_self, hf⟩))
  rcases ht with ht | ht | ⟨g, hg, ht⟩ | ⟨g, hg, ht⟩
  · rcases h.ptr_some ht with hptr | hf
    · exact Or.inl (Or.inl hptr)
    · exact Or.inl (htarget (Frame.target_of_push hf))
  · rcases h.linked ht with ht | hf | ⟨-, hptr⟩
    · exact Or.inl (Or.inr (Or.inl ht))
    · exact Or.inl (htarget (Frame.target_of_push hf))
    · exact Or.inl (Or.inl hptr)
  · rcases List.mem_append.mp hg with hg | hg
    · rcases h.target hg ht with hf | hptr | hev
      · exact Or.inl (htarget hf)
      · exact Or.inl (Or.inl hptr)
      · exact Or.inr hev
    · exact Or.inl (Or.inr (Or.inr (Or.inl ⟨g, List.mem_cons_of_mem _ hg, ht⟩)))
  · rcases List.mem_append.mp hg with hg | hg
    · rcases h.serving hg ht with hf | hq
      · exact Or.inl (Or.inr (Or.inr (Or.inr ⟨f, List.mem_cons_self, hf⟩)))
      · exact Or.inl (Or.inr (Or.inl hq))
    · exact Or.inl (Or.inr (Or.inr (Or.inr ⟨g, List.mem_cons_of_mem _ hg, ht⟩)))

/-- A `TaskStorage::spawn` goes on past its flag when it has set `SPAWNED`. -/
theorem callStep_filing {s s' : Shared N T V} {c : Call N T} {c' : Option (Call N T)} {t : T}
    (h : callStep s c = some (s', c')) (ht : c'.bind Call.filing = some t) :
    c.filing = some t ∨ (s'.tasks t).state.spawned = true := by
  cases callStep_next h with
  | storageFlag =>
    obtain rfl := Option.some.inj ht
    refine Or.inr ?_
    rw [Shared.setTask_self]
    rfl
  | storageResult => exact Or.inl ht
  | storageWaker => exact Or.inl ht
  | storageFn => exact Or.inl ht
  | _ => cases ht

theorem Next.filing {s s' : Shared N T V} {f g : Frame N T V} {ev : Event T V}
    {gs : List (Frame N T V)} {t : T} (h : Next s f ev s' gs) (hg : g ∈ gs)
    (ht : g.filing = some t) : f.filing = some t ∨ (s'.tasks t).state.spawned = true := by
  rcases h.mem_frames hg with rfl | rfl | rfl | rfl
  · exact Or.inl ht
  · cases ht
  · cases ht
  cases h with
  | call hu hc =>
    rw [Frame.filing, Frame.setCall_calling hu] at ht
    rw [Frame.filing, Frame.calling_eq hu]
    exact callStep_filing hc ht
  | begin hu hc =>
    rw [Frame.filing, Frame.setCall_calling hu] at ht
    exfalso
    cases callStart_next hc with
    | _ => cases ht
  | setMie => exact Or.inl ht
  | external => exact Or.inl ht
  | clear sys => cases sys <;> cases ht
  | _ => cases ht

/-- The last access of `TaskStorage::poll` comes after the store to `poll_fn`. -/
theorem Next.notify_frame {s s' : Shared N T V} {f : Frame N T V} {ev : Event T V}
    {gs : List (Frame N T V)} {t : T} {q : Fin N} (h : Next s f ev s' gs)
    (hg : Frame.run q (.notify t) ∈ gs) :
    f = .run q (.notify t) ∨ (s'.tasks t).pollFn = some .pollExited := by
  rcases h.mem_frames hg with rfl | hf | hf | rfl
  · exact Or.inl rfl
  · cases hf
  · cases hf
  generalize hgs : [Frame.run q (.notify t)] = gs at h
  cases h with
  | @call _ c _ c' hu hc =>
    have := Frame.setCall_user hu c'
    rw [← (List.cons.inj hgs).1] at this
    cases this
  | @begin _ r _ c hu hc =>
    have := Frame.setCall_user hu (some c)
    rw [← (List.cons.inj hgs).1] at this
    cases this
  | setMie => exact Or.inl (List.cons.inj hgs).1.symm
  | external => exact Or.inl (List.cons.inj hgs).1.symm
  | clear sys => cases sys <;> cases hgs
  | storeExited e u =>
    cases hgs
    refine Or.inr ?_
    rw [Shared.setTask_self]
  | _ => cases hgs

/-- At its last access, `TaskStorage::poll` returns. -/
theorem Next.of_notify {s s' : Shared N T V} {ev : Event T V} {gs : List (Frame N T V)} {t : T}
    {q : Fin N} (h : Next s (.run q (.notify t)) ev s' gs) :
    (ev ≠ .tick ∧ s'.tasks = s.tasks) ∨
      (ev = .tick ∧ gs = [.run q .top] ∧ s.notifyLocked t = some s') := by
  cases h with
  | call hu _ => cases hu
  | begin hu _ => cases hu
  | setMie _ hu _ => cases hu
  | notify hn => exact Or.inr ⟨rfl, rfl, hn⟩
  | trapSoft => exact Or.inl ⟨by simp, rfl⟩
  | trapIsr => exact Or.inl ⟨by simp, rfl⟩
  | external => exact Or.inl ⟨by simp, rfl⟩

/-! ### The pledges of a token -/

/-- The `TaskStorage::spawn`s of `t` in progress, and the tokens for it that
nobody has consumed. -/
def pledges (s : Shared N T V) (fs : List (Frame N T V)) (t : T) : ℕ :=
  (fs.filterMap Frame.storing).count t + s.tokens t

omit [DecidableEq T] in
theorem Frame.storing_setCall {f : Frame N T V} {c : Option (Call N T)} (h : f.user = some c)
    (c' : Option (Call N T)) : (f.setCall c').storing = c'.bind Call.storing := by
  rw [storing, setCall_calling h]

omit [DecidableEq T] in
theorem filterMap_singleton {α β : Type} (g : α → Option β) (a : α) :
    [a].filterMap g = (g a).toList := by
  cases hg : g a with
  | none => rw [List.filterMap_cons_none hg]; rfl
  | some b => rw [List.filterMap_cons_some hg]; rfl

/-- `TaskStorage::spawn` of `t` is called. -/
def Event.storageSpawns (t : T) : Event T V → Bool
  | .call (.storageSpawn u) => u = t
  | _ => false

/-- `Spawner::spawn` of `t` is called. -/
def Event.spawns (t : T) : Event T V → Bool
  | .call (.spawn _ u) => u = t
  | _ => false

theorem callStep_pledges {s s' : Shared N T V} {c : Call N T} {c' : Option (Call N T)}
    (h : callStep s c = some (s', c')) (t : T) :
    (c'.bind Call.storing).toList.count t + s'.tokens t ≤ c.storing.toList.count t + s.tokens t := by
  cases callStep_next h with
  | storageBusy => exact Nat.add_le_add_right (Nat.zero_le _) _
  | storageWrite u =>
    show 0 + update s.tokens u (s.tokens u + 1) t ≤ [u].count t + s.tokens t
    by_cases htu : t = u
    · subst htu
      rw [update_self, List.count_singleton_self]
      omega
    · rw [update_of_ne htu]
      omega
  | _ => exact Nat.le_refl _

theorem callStart_pledges {s s' : Shared N T V} {r : Request T} {c : Call N T}
    (h : callStart s r = some (s', c)) (t : T) :
    c.storing.toList.count t + s'.tokens t + (Event.spawns t (.call r : Event T V)).toNat =
      s.tokens t + (Event.storageSpawns t (.call r : Event T V)).toNat := by
  cases callStart_next h with
  | wake => simp [Call.storing, Event.spawns, Event.storageSpawns]
  | joinPoll => simp [Call.storing, Event.spawns, Event.storageSpawns]
  | storageSpawn u =>
    by_cases htu : u = t
    · simp [Call.storing, Event.spawns, Event.storageSpawns, htu, Nat.add_comm]
    · simp [Call.storing, Event.spawns, Event.storageSpawns, htu]
  | @spawn _ u _ hpos =>
    by_cases htu : t = u
    · subst htu
      simp only [Call.storing, Event.spawns, Event.storageSpawns, update_self,
        Option.toList_none, List.count_nil, decide_true, Bool.toNat_true, Bool.toNat_false]
      omega
    · simp [Call.storing, Event.spawns, Event.storageSpawns, Ne.symm htu, update_of_ne htu]

theorem notifyLocked_tokens {s s' : Shared N T V} {t : T} (h : s.notifyLocked t = some s') :
    s'.tokens = s.tokens := by
  rcases Shared.notifyLocked_some h with ⟨-, rfl⟩ | ⟨w, -, hw⟩
  · rfl
  · rcases Shared.wakeLocked_some hw with ⟨-, rfl⟩ | ⟨e, -, ⟨-, rfl⟩ | ⟨-, bm, -, rfl⟩⟩
    · rfl
    · rfl
    · rfl

theorem pledges_append (s : Shared N T V) (gs fs : List (Frame N T V)) (t : T) :
    pledges s (gs ++ fs) t = pledges s gs t + (fs.filterMap Frame.storing).count t := by
  simp only [pledges, List.filterMap_append, List.count_append]
  omega

/-- A `TaskStorage::spawn` that begins makes one pledge, a `Spawner::spawn`
uses one up. -/
theorem Next.pledges_le {s s' : Shared N T V} {f : Frame N T V} {ev : Event T V}
    {gs : List (Frame N T V)} (h : Next s f ev s' gs) (fs : List (Frame N T V)) (t : T) :
    pledges s' (gs ++ fs) t + (ev.spawns t).toNat ≤
      pledges s (f :: fs) t + (ev.storageSpawns t).toNat := by
  have hcons : pledges s (f :: fs) t = pledges s [f] t + (fs.filterMap Frame.storing).count t :=
    pledges_append s [f] fs t
  suffices hle : pledges s' gs t + (ev.spawns t).toNat ≤
      pledges s [f] t + (ev.storageSpawns t).toNat by
    rw [pledges_append, hcons]
    omega
  cases h with
  | call hu hc =>
    rw [pledges, pledges, filterMap_singleton, filterMap_singleton,
      Frame.storing_setCall hu, Frame.storing, Frame.calling_eq hu]
    exact callStep_pledges hc t
  | begin hu hc =>
    have hstart := callStart_pledges (V := V) hc t
    rw [pledges, pledges, filterMap_singleton, filterMap_singleton,
      Frame.storing_setCall hu, Frame.storing, Frame.calling_eq hu]
    simp only [Option.bind_some, Option.bind_none, Option.toList_none, List.count_nil]
    omega
  | notify hn =>
    rw [pledges, notifyLocked_tokens hn]
    exact Nat.le_refl _
  | clear sys => cases sys <;> exact Nat.le_refl _
  | _ => exact Nat.le_refl _

/-! ### The storage is spawned once -/

/-- How far the one incarnation of a task is: `TaskStorage::spawn` has not been
called, it has been, `Spawner::spawn` has been. -/
inductive Phase
  | unspawned
  | token
  | spawned
  deriving DecidableEq, Repr

/-- A second `TaskStorage::spawn` is not called. -/
def Phase.next (t : T) (ev : Event T V) (p : Phase) : Option Phase :=
  if ev.storageSpawns t then if p = .unspawned then some .token else none
  else if ev.spawns t then some .spawned else some p

/-- Nobody has anything to do with the task yet, or any more. -/
structure Kernel.Unused (k : Kernel N T V) (t : T) : Prop where
  pledges : pledges k.shared k.frames t = 0
  nobody : ∀ e, ¬k.InHand t e
  pollFn : (k.shared.tasks t).pollFn ≠ some .poll

/-- While the storage of `t` is spawned once: one token at most is pledged, one
executor at most has the task in hand, and only after `Spawner::spawn`; the
task is spawned while an activation is inside `TaskStorage::poll` of it. -/
structure Kernel.Once (k : Kernel N T V) (t : T) (p : Phase) : Prop where
  pledged : RtAsync.pledges k.shared k.frames t ≤ if p = .token then 1 else 0
  one : ∀ e e', k.InHand t e → k.InHand t e' → e = e'
  nobody : p ≠ .spawned → ∀ e, ¬k.InHand t e
  filing : ∀ f ∈ k.frames, f.filing = some t → (k.shared.tasks t).state.spawned = true
  poll : (k.shared.tasks t).pollFn = some .poll → (k.shared.tasks t).state.spawned = true
  within : ∀ f ∈ k.frames, f.within = some t → (k.shared.tasks t).state.spawned = true
  exited : ∀ q, Frame.run q (.notify t) ∈ k.frames → (k.shared.tasks t).pollFn ≠ some .poll

omit [DecidableEq T] in
/-- Whatever else is on the stack has no task in hand. -/
theorem Kernel.InHand.of_le {k k' : Kernel N T V} {t : T} {e : Fin N} (h : k'.InHand t e)
    (hptr : k'.shared.ptr = k.shared.ptr) (hq : k'.shared.queue = k.shared.queue)
    (hle : ∀ f ∈ k'.frames, f ∈ k.frames ∨ (f.target = none ∧ f.serving = none)) :
    k.InHand t e := by
  rcases h with h | h | ⟨f, hf, h⟩ | ⟨f, hf, h⟩
  · exact Or.inl (hptr ▸ h)
  · exact Or.inr (Or.inl (hq ▸ h))
  · rcases hle f hf with hf | ⟨hno, -⟩
    · exact Or.inr (Or.inr (Or.inl ⟨f, hf, h⟩))
    · rw [hno] at h
      cases h
  · rcases hle f hf with hf | ⟨-, hno⟩
    · exact Or.inr (Or.inr (Or.inr ⟨f, hf, h⟩))
    · rw [hno] at h
      cases h

omit [DecidableEq T] in
theorem Kernel.InHand.of_within {k : Kernel N T V} {f : Frame N T V} {t : T} (hf : f ∈ k.frames)
    (h : f.within = some t) : ∃ e, k.InHand t e := by
  obtain ⟨e, hs, -⟩ := Frame.serving_of_within h
  exact ⟨e, Or.inr (Or.inr (Or.inr ⟨f, hf, hs⟩))⟩

theorem pledges_pos {s : Shared N T V} {fs : List (Frame N T V)} {f : Frame N T V} {t : T}
    (hf : f ∈ fs) (h : f.storing = some t) : 0 < pledges s fs t := by
  have hmem : t ∈ fs.filterMap Frame.storing := List.mem_filterMap.mpr ⟨f, hf, h⟩
  have := List.count_pos_iff.mpr hmem
  unfold pledges
  omega

theorem Kernel.Unused.once {k : Kernel N T V} {t : T} (h : k.Unused t) : k.Once t .unspawned where
  pledged := by rw [h.pledges]; exact Nat.zero_le _
  one e _ he _ := absurd he (h.nobody e)
  nobody _ := h.nobody
  filing f hf hfile := by
    have := pledges_pos (s := k.shared) hf (Frame.storing_of_filing hfile)
    rw [h.pledges] at this
    cases this
  poll hp := absurd hp h.pollFn
  within f hf hw := by
    obtain ⟨e, he⟩ := Kernel.InHand.of_within hf hw
    exact absurd he (h.nobody e)
  exited _ _ := h.pollFn

namespace Kernel.Once

variable {s s' : Shared N T V} {f : Frame N T V} {ev : Event T V} {fs gs : List (Frame N T V)}
  {t : T} {p p' : Phase}

/-- An activation that serves `t`: `Spawner::spawn` has been called, and no
`TaskStorage::spawn` works on `t`. -/
theorem not_storing {k : Kernel N T V} (hk : k.Once t p) {e : Fin N} (he : k.InHand t e)
    {g : Frame N T V} (hg : g ∈ k.frames) : g.storing ≠ some t := by
  intro hs
  have hp : p = .spawned := Decidable.of_not_not fun hne => hk.nobody hne e he
  have hpos := pledges_pos (s := k.shared) hg hs
  have hle := hk.pledged
  rw [hp, if_neg (by decide)] at hle
  omega

/-- No other activation has dequeued a task while one is inside its poll. -/
theorem alone (hk : Once ⟨s, f :: fs⟩ t p) (hn : Nested ⟨s, f :: fs⟩) (hf : f.within = some t)
    {g : Frame N T V} (hg : g ∈ fs) : g.within ≠ some t := by
  intro hgw
  obtain ⟨e, hs, hr⟩ := Frame.serving_of_within hf
  obtain ⟨e', hs', hr'⟩ := Frame.serving_of_within hgw
  have he : Kernel.InHand ⟨s, f :: fs⟩ t e := Or.inr (Or.inr (Or.inr ⟨f, List.mem_cons_self, hs⟩))
  have he' : Kernel.InHand ⟨s, f :: fs⟩ t e' :=
    Or.inr (Or.inr (Or.inr ⟨g, List.mem_cons_of_mem _ hg, hs'⟩))
  have hsorted := hn.running_sorted
  rw [List.filterMap_cons_some hr] at hsorted
  have hlt := (List.pairwise_cons.mp hsorted).1 e' (List.mem_filterMap.mpr ⟨g, hg, hr'⟩)
  rw [hk.one e e' he he'] at hlt
  exact lt_irrefl _ hlt

/-- A token that is consumed was pledged. -/
theorem token_of_spawns (hk : Once ⟨s, f :: fs⟩ t p) (h : Next s f ev s' gs)
    (hev : ev.spawns t = true) : p = .token := by
  have hle := h.pledges_le fs t
  have hpl : RtAsync.pledges s (f :: fs) t ≤ if p = .token then 1 else 0 := hk.pledged
  have hno : ev.storageSpawns t = false := by
    cases ev with
    | call r => cases r <;> first | rfl | cases hev
    | _ => rfl
  rw [hev, hno, Bool.toNat_true, Bool.toNat_false] at hle
  by_contra hne
  rw [if_neg hne] at hpl
  omega

theorem pledged_next (hk : Once ⟨s, f :: fs⟩ t p) (hp : p.next t ev = some p')
    (h : Next s f ev s' gs) :
    RtAsync.pledges s' (gs ++ fs) t ≤ if p' = .token then 1 else 0 := by
  have hle := h.pledges_le fs t
  have hpl : RtAsync.pledges s (f :: fs) t ≤ if p = .token then 1 else 0 := hk.pledged
  unfold Phase.next at hp
  cases hst : ev.storageSpawns t with
  | true =>
    rw [hst, if_pos rfl] at hp
    obtain ⟨rfl, hp⟩ := Option.ite_none_right_eq_some.mp hp
    rw [hst, Bool.toNat_true] at hle
    rw [← Option.some.inj hp, if_pos rfl]
    rw [if_neg (by decide)] at hpl
    omega
  | false =>
    rw [hst, if_neg (by decide)] at hp
    rw [hst, Bool.toNat_false] at hle
    cases hsp : ev.spawns t with
    | true =>
      rw [hsp, if_pos rfl] at hp
      rw [hk.token_of_spawns h hsp, if_pos rfl] at hpl
      rw [hsp, Bool.toNat_true] at hle
      rw [← Option.some.inj hp, if_neg (by decide)]
      omega
    | false =>
      rw [hsp, if_neg (by decide)] at hp
      rw [← Option.some.inj hp]
      omega

theorem one_next (hk : Once ⟨s, f :: fs⟩ t p) (h : Next s f ev s' gs) (e e' : Fin N)
    (he : Kernel.InHand ⟨s', gs ++ fs⟩ t e) (he' : Kernel.InHand ⟨s', gs ++ fs⟩ t e') : e = e' := by
  have hnobody : ∀ q q', Kernel.InHand ⟨s, f :: fs⟩ t q → ev = .call (.spawn ⟨q'⟩ t) → False := by
    intro q q' hq hev
    have hp := hk.token_of_spawns h (by rw [hev]; simp [Event.spawns])
    exact hk.nobody (by rw [hp]; decide) q hq
  rcases h.inHand he with he | hev
  · rcases h.inHand he' with he' | hev'
    · exact hk.one e e' he he'
    · exact absurd hev' fun hev' => hnobody e _ he hev'
  · rcases h.inHand he' with he' | hev'
    · exact absurd hev fun hev => hnobody e' _ he' hev
    · rw [hev] at hev'
      simp only [Event.call.injEq, Request.spawn.injEq, Priority.mk.injEq, and_true] at hev'
      exact Fin.ext hev'

theorem nobody_next (hk : Once ⟨s, f :: fs⟩ t p) (hp : p.next t ev = some p')
    (h : Next s f ev s' gs) (hp' : p' ≠ .spawned) (e : Fin N) :
    ¬Kernel.InHand ⟨s', gs ++ fs⟩ t e := by
  intro he
  unfold Phase.next at hp
  rcases h.inHand he with he | hev
  · have hps : p = .spawned := Decidable.of_not_not fun hne => hk.nobody hne e he
    rw [hps, if_neg (by decide : Phase.spawned ≠ .unspawned)] at hp
    split at hp
    · cases hp
    · split at hp <;> exact hp' (Option.some.inj hp).symm
  · rw [hev] at hp
    simp only [Event.storageSpawns, Event.spawns, decide_true, if_true, Bool.false_eq_true,
      if_false, Option.some.injEq] at hp
    exact hp' hp.symm

/-- `SPAWNED` stays set, but for the last access of `TaskStorage::poll`. -/
theorem spawned_next (h : Next s f ev s' gs) (hs : (s.tasks t).state.spawned = true) :
    (s'.tasks t).state.spawned = true ∨ ∃ q, f = .run q (.notify t) ∧ gs = [.run q .top] := by
  cases h.taskEffect t with
  | keep hsame => exact Or.inl (hsame.spawned.trans hs)
  | storage _ hsp _ => exact Or.inl (hsp hs)
  | take _ _ hsame _ => exact Or.inl (hsame.spawned.trans hs)
  | store _ _ hsame _ => exact Or.inl (hsame.spawned.trans hs)
  | result _ _ _ hsame _ => exact Or.inl (hsame.spawned.trans hs)
  | exited _ _ hsame _ => exact Or.inl (hsame.spawned.trans hs)
  | notify q hf _ _ _ =>
    subst hf
    rcases h.of_notify with ⟨-, htasks⟩ | ⟨-, hgs, -⟩
    · exact Or.inl (htasks ▸ hs)
    · exact Or.inr ⟨q, rfl, hgs⟩

theorem next (hk : Once ⟨s, f :: fs⟩ t p) (hn : Nested ⟨s, f :: fs⟩) (hp : p.next t ev = some p')
    (h : Next s f ev s' gs) : Once ⟨s', gs ++ fs⟩ t p' where
  pledged := hk.pledged_next hp h
  one := hk.one_next h
  nobody := hk.nobody_next hp h
  filing g hg hfile := by
    have hbefore : ∀ g' ∈ f :: fs, g'.filing = some t → (s'.tasks t).state.spawned = true := by
      intro g' hg' hf'
      rcases spawned_next h (hk.filing g' hg' hf') with hsp | ⟨q, hf, -⟩
      · exact hsp
      · -- nobody despawns a task that is not in hand
        obtain ⟨e, he⟩ := Kernel.InHand.of_within (k := ⟨s, f :: fs⟩) List.mem_cons_self
          (by rw [hf]; rfl : f.within = some t)
        exact absurd (Frame.storing_of_filing hf') (hk.not_storing he hg')
    rcases List.mem_append.mp hg with hg | hg
    · rcases h.filing hg hfile with hf | hsp
      · exact hbefore f List.mem_cons_self hf
      · exact hsp
    · exact hbefore g (List.mem_cons_of_mem _ hg) hfile
  poll hfn := by
    cases h.taskEffect t with
    | keep hsame => exact hsame.spawned.trans (hk.poll (hsame.pollFn ▸ hfn))
    | storage _ hsp hfn' =>
      rcases hfn' with hfn' | hfile
      · exact hsp (hk.poll (hfn' ▸ hfn))
      · exact hsp (hk.filing f List.mem_cons_self hfile)
    | take _ _ hsame _ => exact hsame.spawned.trans (hk.poll (hsame.pollFn ▸ hfn))
    | store _ _ hsame _ => exact hsame.spawned.trans (hk.poll (hsame.pollFn ▸ hfn))
    | result _ _ _ hsame _ => exact hsame.spawned.trans (hk.poll (hsame.pollFn ▸ hfn))
    | exited _ _ _ hfn' =>
      rw [hfn'] at hfn
      cases hfn
    | notify q hf _ _ hfn' =>
      rw [hfn'] at hfn
      exact absurd hfn (hk.exited q (hf ▸ List.mem_cons_self))
  within g hg hw := by
    rcases List.mem_append.mp hg with hg | hg
    · have hbefore : (s.tasks t).state.spawned = true := by
        rcases h.within hg hw with hf | ⟨-, hfn⟩
        · exact hk.within f List.mem_cons_self hf
        · exact hk.poll hfn
      rcases spawned_next h hbefore with hsp | ⟨q, -, hgs⟩
      · exact hsp
      · rw [hgs] at hg
        rw [List.mem_singleton.mp hg] at hw
        cases hw
    · rcases spawned_next h (hk.within g (List.mem_cons_of_mem _ hg) hw) with hsp | ⟨q, hf, -⟩
      · exact hsp
      · exact absurd hw (hk.alone hn (by rw [hf]; rfl) hg)
  exited q hg := by
    have hbefore : Frame.run q (.notify t) ∈ f :: fs → (s'.tasks t).pollFn ≠ some .poll := by
      intro hmem hfn
      have hne : (s.tasks t).pollFn ≠ some .poll := hk.exited q hmem
      cases h.taskEffect t with
      | keep hsame => exact hne (hsame.pollFn ▸ hfn)
      | storage hst _ hfn' =>
        obtain ⟨e, he⟩ := Kernel.InHand.of_within (k := ⟨s, f :: fs⟩) (t := t) hmem rfl
        exact hk.not_storing he List.mem_cons_self hst
      | take _ _ hsame _ => exact hne (hsame.pollFn ▸ hfn)
      | store _ _ hsame _ => exact hne (hsame.pollFn ▸ hfn)
      | result _ _ _ hsame _ => exact hne (hsame.pollFn ▸ hfn)
      | exited _ _ _ hfn' =>
        rw [hfn'] at hfn
        cases hfn
      | notify _ _ _ _ hfn' => exact hne (hfn' ▸ hfn)
    rcases List.mem_append.mp hg with hg | hg
    · rcases h.notify_frame hg with hf | hfn
      · exact hbefore (hf ▸ List.mem_cons_self)
      · rw [hfn]
        decide
    · exact hbefore (List.mem_cons_of_mem _ hg)

end Kernel.Once

/-! ### A storage that is spawned again -/

/-- The `TaskStorage::spawn`s of `t` past their `fetch_or`, and the tokens for
it that nobody has consumed. -/
def tickets (s : Shared N T V) (fs : List (Frame N T V)) (t : T) : ℕ :=
  (fs.filterMap Frame.filing).count t + s.tokens t

theorem tickets_append (s : Shared N T V) (gs fs : List (Frame N T V)) (t : T) :
    tickets s (gs ++ fs) t = tickets s gs t + (fs.filterMap Frame.filing).count t := by
  simp only [tickets, List.filterMap_append, List.count_append]
  omega

theorem tickets_pos {s : Shared N T V} {fs : List (Frame N T V)} {f : Frame N T V} {t : T}
    (hf : f ∈ fs) (h : f.filing = some t) : 0 < tickets s fs t := by
  have hmem : t ∈ fs.filterMap Frame.filing := List.mem_filterMap.mpr ⟨f, hf, h⟩
  have := List.count_pos_iff.mpr hmem
  unfold tickets
  omega

omit [DecidableEq T] in
theorem Frame.filing_setCall {f : Frame N T V} {c : Option (Call N T)} (h : f.user = some c)
    (c' : Option (Call N T)) : (f.setCall c').filing = c'.bind Call.filing := by
  rw [filing, setCall_calling h]

theorem callStep_tickets {s s' : Shared N T V} {c : Call N T} {c' : Option (Call N T)}
    (h : callStep s c = some (s', c')) (t : T) :
    (c'.bind Call.filing).toList.count t + s'.tokens t ≤
        c.filing.toList.count t + s.tokens t ∨
      (c = .storageFlag t ∧ (s.tasks t).state.spawned = false ∧
        (s'.tasks t).state.spawned = true ∧ s'.tokens = s.tokens) := by
  cases callStep_next h with
  | @storageFlag u hclear =>
    by_cases htu : t = u
    · subst htu
      refine Or.inr ⟨rfl, hclear, ?_, rfl⟩
      rw [Shared.setTask_self]
      rfl
    · refine Or.inl ?_
      show [u].count t + s.tokens t ≤ 0 + s.tokens t
      rw [List.count_singleton, if_neg (by simpa using Ne.symm htu)]
  | storageWrite u =>
    refine Or.inl ?_
    show 0 + update s.tokens u (s.tokens u + 1) t ≤ [u].count t + s.tokens t
    by_cases htu : t = u
    · subst htu
      rw [update_self, List.count_singleton_self]
      omega
    · rw [update_of_ne htu]
      omega
  | _ => exact Or.inl (Nat.le_refl _)

theorem callStart_tickets {s s' : Shared N T V} {r : Request T} {c : Call N T}
    (h : callStart s r = some (s', c)) (t : T) :
    c.filing.toList.count t + s'.tokens t + (Event.spawns t (.call r : Event T V)).toNat =
      s.tokens t := by
  cases callStart_next h with
  | @spawn _ u _ hpos =>
    by_cases htu : t = u
    · subst htu
      simp only [Call.filing, Call.storing, Event.spawns, update_self, Option.toList_none,
        List.count_nil, decide_true, Bool.toNat_true]
      omega
    · simp [Call.filing, Call.storing, Event.spawns, Ne.symm htu, update_of_ne htu]
  | _ => simp [Call.filing, Call.storing, Event.spawns]

theorem eq_of_singleton_eq {α : Type} {a b : α} {l m : List α} (h : [a] = l ++ b :: m) :
    l = [] ∧ b = a ∧ m = [] := by
  cases l with
  | nil =>
    obtain ⟨rfl, rfl⟩ := List.cons.inj h
    exact ⟨rfl, rfl, rfl⟩
  | cons c l => simp at h

/-- A ticket is made where `TaskStorage::spawn` sets `SPAWNED`, and used up by
`Spawner::spawn`. -/
theorem Next.tickets {s s' : Shared N T V} {f : Frame N T V} {ev : Event T V}
    {gs : List (Frame N T V)} (h : Next s f ev s' gs) (fs : List (Frame N T V)) (t : T) :
    tickets s' (gs ++ fs) t + (ev.spawns t).toNat ≤ tickets s (f :: fs) t ∨
      (ev = .tick ∧ f.calling = some (.storageFlag t) ∧ (s.tasks t).state.spawned = false ∧
        (s'.tasks t).state.spawned = true ∧ tickets s' (gs ++ fs) t ≤ tickets s (f :: fs) t + 1) := by
  have hcons : RtAsync.tickets s (f :: fs) t =
      RtAsync.tickets s [f] t + (fs.filterMap Frame.filing).count t := tickets_append s [f] fs t
  rw [tickets_append, hcons]
  cases h with
  | @call _ c _ c' hu hc =>
    have hold : RtAsync.tickets s [f] t = c.filing.toList.count t + s.tokens t := by
      rw [RtAsync.tickets, filterMap_singleton, Frame.filing, Frame.calling_eq hu]
      rfl
    have hnew : RtAsync.tickets s' [f.setCall c'] t =
        (c'.bind Call.filing).toList.count t + s'.tokens t := by
      rw [RtAsync.tickets, filterMap_singleton, Frame.filing_setCall hu]
    have hno : (Event.spawns t (.tick : Event T V)).toNat = 0 := rfl
    rw [hold, hnew, hno]
    rcases callStep_tickets hc t with hle | ⟨rfl, hclear, hset, htok⟩
    · exact Or.inl (by omega)
    · refine Or.inr ⟨rfl, Frame.calling_eq hu, hclear, hset, ?_⟩
      have hone : (c'.bind Call.filing).toList.count t ≤ 1 :=
        List.count_le_length.trans (by cases c'.bind Call.filing <;> simp)
      rw [htok]
      omega
  | begin hu hc =>
    have hstart := callStart_tickets (V := V) hc t
    refine Or.inl ?_
    rw [RtAsync.tickets, RtAsync.tickets, filterMap_singleton, filterMap_singleton,
      Frame.filing_setCall hu, Frame.filing, Frame.calling_eq hu]
    simp only [Option.bind_some, Option.bind_none, Option.toList_none, List.count_nil]
    omega
  | notify hn =>
    refine Or.inl ?_
    rw [RtAsync.tickets, notifyLocked_tokens hn]
    exact Nat.le_refl _
  | clear sys => cases sys <;> exact Or.inl (Nat.le_refl _)
  | _ => exact Or.inl (Nat.le_refl _)

/-- `TaskStorage::spawn` sets `SPAWNED` only of a task that nobody has in hand
any more: no back-pointer, link or dequeued task of its last incarnation is
left, and no call that enqueues it. -/
def Kernel.SpawnsFresh (k : Kernel N T V) (ev : Event T V) : Prop :=
  ev = .tick → ∀ f fs t, k.frames = f :: fs → f.calling = some (.storageFlag t) →
    (k.shared.tasks t).state.spawned = false → ∀ e, ¬k.InHand t e

/-- Of all its incarnations one at most is about: it has a ticket, or one
executor has the task in hand, and until the `fetch_or` of `Spawner::spawn`
nobody but its caller. -/
structure Kernel.Sole (k : Kernel N T V) (t : T) : Prop where
  ticket : tickets k.shared k.frames t ≤ 1
  spawned : 0 < tickets k.shared k.frames t → (k.shared.tasks t).state.spawned = true
  nobody : 0 < tickets k.shared k.frames t → ∀ e, ¬k.InHand t e
  one : ∀ e e', k.InHand t e → k.InHand t e' → e = e'
  asking : ∀ hs g fs e, k.frames = hs ++ g :: fs → g.calling = some (.spawnFlag e t) →
    ∀ q, ¬Kernel.InHand ⟨k.shared, hs ++ fs⟩ t q

namespace Kernel.Sole

variable {s s' : Shared N T V} {f : Frame N T V} {ev : Event T V} {fs gs : List (Frame N T V)}
  {t : T}

theorem init (t : T) : Sole (Kernel.init : Kernel N T V) t where
  ticket := Nat.zero_le 1
  spawned h := absurd h (Nat.lt_irrefl 0)
  nobody h := absurd h (Nat.lt_irrefl 0)
  one e _ he _ := by
    rcases he with he | he | ⟨g, hg, he⟩ | ⟨g, hg, he⟩
    · cases he
    · cases he
    · rw [List.mem_singleton.mp hg] at he
      cases he
    · rw [List.mem_singleton.mp hg] at he
      cases he
  asking hs g fs e hframes hcall := by
    have hg : g ∈ [Frame.base none] := by
      rw [show [Frame.base none] = hs ++ g :: fs from hframes]
      exact List.mem_append_right _ List.mem_cons_self
    rw [List.mem_singleton.mp hg] at hcall
    cases hcall

/-- Who calls `Spawner::spawn` uses up the ticket. -/
theorem ticket_of_spawns (h : Next s f ev s' gs) (hev : ev.spawns t = true) :
    0 < tickets s (f :: fs) t := by
  rcases h.tickets fs t with hle | ⟨rfl, -⟩
  · rw [hev, Bool.toNat_true] at hle
    omega
  · cases hev

/-- Only the caller of `Spawner::spawn` brings a task into somebody's hands. -/
theorem inHand (hk : Sole ⟨s, f :: fs⟩ t) (h : Next s f ev s' gs) {q q' : Fin N}
    (hq : InHand ⟨s, f :: fs⟩ t q) (hq' : InHand ⟨s', gs ++ fs⟩ t q') : q' = q := by
  rcases h.inHand hq' with he | rfl
  · exact hk.one q' q he hq
  · exact absurd hq (hk.nobody (ticket_of_spawns h (by simp [Event.spawns])) q)

/-- Nobody else comes to have the task in hand while `Spawner::spawn` stands
before its `fetch_or`. -/
theorem asking_next (hk : Sole ⟨s, f :: fs⟩ t) (h : Next s f ev s' gs) {hs : List (Frame N T V)}
    {g : Frame N T V} {fs' : List (Frame N T V)} {e : Fin N}
    (hframes : gs ++ fs = hs ++ g :: fs') (hcall : g.calling = some (.spawnFlag e t)) (q : Fin N) :
    ¬InHand ⟨s', hs ++ fs'⟩ t q := by
  have htarget : g.target = some (t, e) := by
    rw [Frame.target, hcall]
    rfl
  -- the caller is not the innermost activation
  have hbelow : ∀ as, fs = as ++ g :: fs' → ¬InHand ⟨s', gs ++ (as ++ fs')⟩ t q := by
    rintro as rfl hq
    rcases h.inHand hq with hq | rfl
    · exact hk.asking (f :: as) g fs' e rfl hcall q hq
    · refine hk.nobody (ticket_of_spawns h (by simp [Event.spawns])) e ?_
      exact Or.inr (Or.inr (Or.inl ⟨g, by simp, htarget⟩))
  -- it is, and is interrupted
  have hsame : g = f → s'.ptr = s.ptr → s'.queue = s.queue →
      ∀ as, (∀ g' ∈ as, g'.target = none ∧ g'.serving = none) →
        ¬InHand ⟨s', as ++ fs⟩ t q := by
    rintro rfl hptr hqueue as has hq
    exact hk.asking [] g fs e rfl hcall q (hq.of_le hptr hqueue fun g' hg' =>
      (List.mem_append.mp hg').symm.imp_right (has g'))
  rcases List.append_eq_append_iff.mp hframes with ⟨as, rfl, hfs⟩ | ⟨as, hgs, has⟩
  · rw [List.append_assoc]
    exact hbelow as hfs
  cases as with
  | nil =>
    rw [List.append_nil] at hgs
    rw [← hgs]
    exact hbelow [] has.symm
  | cons g' as =>
    obtain ⟨rfl, rfl⟩ := List.cons.inj has
    cases h with
    | call hu hc =>
      obtain ⟨rfl, rfl, rfl⟩ := eq_of_singleton_eq hgs
      rw [Frame.setCall_calling hu] at hcall
      subst hcall
      cases callStep_next hc
    | begin hu hc =>
      obtain ⟨rfl, rfl, rfl⟩ := eq_of_singleton_eq hgs
      rw [Frame.setCall_calling hu] at hcall
      obtain rfl := Option.some.inj hcall
      cases callStart_next hc with
      | @spawn prio _ hprio hpos =>
        intro hq
        refine hk.nobody ?_ q (hq.of_le rfl rfl fun g' hg' => Or.inl (List.mem_cons_of_mem _ hg'))
        exact Nat.lt_of_lt_of_le hpos (Nat.le_add_left _ _)
    | setMie =>
      obtain ⟨rfl, rfl, rfl⟩ := eq_of_singleton_eq hgs
      exact hsame rfl rfl rfl [] (by simp)
    | external =>
      obtain ⟨rfl, rfl, rfl⟩ := eq_of_singleton_eq hgs
      exact hsame rfl rfl rfl [] (by simp)
    | trapSoft =>
      rcases List.cons_eq_append_iff.mp hgs with ⟨rfl, hgs⟩ | ⟨hs', rfl, hgs⟩
      · obtain ⟨rfl, -⟩ := List.cons.inj hgs
        cases hcall
      · obtain ⟨rfl, rfl, rfl⟩ := eq_of_singleton_eq (List.cons.inj hgs).2
        exact hsame rfl rfl rfl [.hook none] (by simp [Frame.target, Frame.calling, Frame.user, Frame.serving])
    | trapIsr =>
      rcases List.cons_eq_append_iff.mp hgs with ⟨rfl, hgs⟩ | ⟨hs', rfl, hgs⟩
      · obtain ⟨rfl, -⟩ := List.cons.inj hgs
        cases hcall
      · obtain ⟨rfl, rfl, rfl⟩ := eq_of_singleton_eq (List.cons.inj hgs).2
        exact hsame rfl rfl rfl [.isr none] (by simp [Frame.target, Frame.calling, Frame.user, Frame.serving])
    | isrRet => simp at hgs
    | mret => simp at hgs
    | clear sys =>
      obtain ⟨rfl, rfl, rfl⟩ := eq_of_singleton_eq hgs
      cases sys <;> cases hcall
    | _ =>
      obtain ⟨rfl, rfl, rfl⟩ := eq_of_singleton_eq hgs
      cases hcall

theorem next (hk : Sole ⟨s, f :: fs⟩ t) (hok : SpawnsFresh ⟨s, f :: fs⟩ ev)
    (h : Next s f ev s' gs) : Sole ⟨s', gs ++ fs⟩ t := by
  have hticket : tickets s (f :: fs) t ≤ 1 := hk.ticket
  -- where `TaskStorage::spawn` sets `SPAWNED` there is no ticket, and nobody in hand
  rcases h.tickets fs t with hle | ⟨rfl, hcall, hclear, hset, hle⟩
  · refine ⟨?_, fun hpos => ?_, fun hpos q hq => ?_, fun q q' hq hq' => ?_,
      fun hs g fs' e hframes hcall q => hk.asking_next h hframes hcall q⟩
    · show tickets s' (gs ++ fs) t ≤ 1
      omega
    · have hbefore : 0 < tickets s (f :: fs) t :=
        Nat.lt_of_lt_of_le hpos ((Nat.le_add_right _ _).trans hle)
      rcases Once.spawned_next h (hk.spawned hbefore) with hsp | ⟨q, hf, -⟩
      · exact hsp
      · obtain ⟨e, he⟩ := InHand.of_within (k := ⟨s, f :: fs⟩) List.mem_cons_self
          (by rw [hf]; rfl : f.within = some t)
        exact absurd he (hk.nobody hbefore e)
    · have hpos : 0 < tickets s' (gs ++ fs) t := hpos
      rcases h.inHand hq with hq | rfl
      · exact hk.nobody (by show 0 < tickets s (f :: fs) t; omega) q hq
      · have hone : (Event.spawns t (.call (.spawn ⟨q⟩ t) : Event T V)).toNat = 1 := by
          simp [Event.spawns]
        omega
    · rcases h.inHand hq with he | rfl
      · exact (hk.inHand h he hq').symm
      · rcases h.inHand hq' with he | hev
        · exact hk.inHand h he hq
        · simp only [Event.call.injEq, Request.spawn.injEq, Priority.mk.injEq, and_true] at hev
          exact Fin.ext hev
  · have hnone : tickets s (f :: fs) t = 0 := by
      by_contra hne
      rw [hk.spawned (Nat.pos_of_ne_zero hne)] at hclear
      cases hclear
    have hno : ∀ q, ¬InHand ⟨s', gs ++ fs⟩ t q := fun q hq => by
      rcases h.inHand hq with hq | hev
      · exact hok rfl f fs t rfl hcall hclear q hq
      · cases hev
    refine ⟨?_, fun _ => hset, fun _ => hno, fun q _ hq => absurd hq (hno q),
      fun hs g fs' e hframes hcall q => hk.asking_next h hframes hcall q⟩
    show tickets s' (gs ++ fs) t ≤ 1
    omega

/-- At the `fetch_or` of `Spawner::spawn` the flag is clear. -/
theorem flag_clear (hk : Sole ⟨s, f :: fs⟩ t) (hb : Balanced ⟨s, f :: fs⟩) {e : Fin N}
    (hcall : f.calling = some (.spawnFlag e t)) : s.flag t = false := by
  by_contra hflag
  have hnone : f.push = none := by
    rw [Frame.push, hcall]
    rfl
  have hfree : ∀ q, ¬InHand ⟨s, fs⟩ t q := hk.asking [] f fs e rfl hcall
  rcases (hb.linked_or_owed t).mp (Bool.eq_true_of_not_eq_false hflag) with ⟨⟨q, hq⟩, -⟩ | ⟨-, howed⟩
  · exact hfree q (Or.inr (Or.inl hq))
  · have howed : owed (f :: fs) t = 1 := howed
    rw [owed_cons, owed_none hnone, Nat.zero_add] at howed
    obtain ⟨g, hg, q, hp⟩ := exists_push_of_owed (howed ▸ Nat.one_pos)
    exact hfree q (Or.inr (Or.inr (Or.inl ⟨g, hg, Frame.target_of_push hp⟩)))

end Kernel.Sole

theorem Kernel.sole_next {k k' : Kernel N T V} {ev : Event T V} (hk : ∀ t, k.Sole t)
    (hok : k.SpawnsFresh ev) (hs : k.step ev = some k') (t : T) : k'.Sole t := by
  obtain ⟨f, fs, s', gs, hframes, rfl, hnext⟩ := step_next hs
  have ht : k.Sole t := hk t
  rw [hframes] at ht hok
  exact ht.next hok hnext

end RtAsync

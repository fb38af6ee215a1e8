/-
# What one step of the hart can do

The inversion of `frameStep`: one constructor of `Next` for each statement an
activation can execute, with the shared state and the frames after it, and one
of `CallNext` for each way an access of a call can go. The invariants of the
other modules are proved from them and never unfold the step.

Key definitions: `CallNext`, `RequestNext`, `Next`, `Frame.token`,
`Frame.interruptible`.
Key theorems: `Kernel.step_next`, `Next.mem_frames`, `callStep_next`, `Shared.enqueueLocked_some`,
`Shared.dequeueLocked_some`, `Shared.tryPreempt_some`, `Shared.wakeLocked_some`,
`Shared.notifyLocked_some`.
-/
import RtAsync.Executor.Kernel

namespace RtAsync

open Function (update)

variable {N : ℕ} {T V : Type}

/-! ### The accesses -/

namespace Shared

/-- `try_preempt`'s condition: `p` is the highest ready priority and nothing
of that priority or higher is on the stack. -/
def Preempts (s : Shared N T V) (p : ℕ) : Prop :=
  s.bitmap.highest = some (some p) ∧ ∀ q ∈ s.prioStack.head?, p < q.value

theorem tryPreempt_some {s s' : Shared N T V} {o : Option Priority}
    (h : s.tryPreempt = some (s', o)) :
    (∃ p, s.Preempts p ∧ s.prioStack.length < N ∧ o = some ⟨p⟩ ∧
      s' = { s with prioStack := ⟨p⟩ :: s.prioStack }) ∨
    (o = none ∧ s' = s ∧ ((∃ p, s.Preempts p) → N ≤ s.prioStack.length)) := by
  obtain ⟨highest, hh, h⟩ := Option.map_eq_some_iff.mp h
  cases highest with
  | none =>
    obtain ⟨rfl, rfl⟩ := Prod.mk.inj h
    refine Or.inr ⟨rfl, rfl, fun ⟨p, hp, _⟩ => ?_⟩
    rw [hh] at hp
    cases hp
  | some p =>
    have huniq : ∀ q, s.bitmap.highest = some (some q) → q = p := fun q hq => by
      rw [hh] at hq
      exact (Option.some.inj (Option.some.inj hq)).symm
    unfold pushPrio at h
    cases hs : s.prioStack.head? with
    | none =>
      rw [hs] at h
      by_cases hlen : s.prioStack.length < N
      · simp only [hlen, ↓reduceIte, Prod.mk.injEq] at h
        exact Or.inl ⟨p, ⟨hh, by simp [hs]⟩, hlen, h.2.symm, h.1.symm⟩
      · simp only [hlen, ↓reduceIte, Prod.mk.injEq] at h
        exact Or.inr ⟨h.2.symm, h.1.symm, fun _ => Nat.not_lt.mp hlen⟩
    | some q =>
      rw [hs] at h
      by_cases hlow : q.isLowerThan ⟨p⟩ = true
      · have hlt := (Priority.isLowerThan_iff _ _).mp hlow
        by_cases hlen : s.prioStack.length < N
        · simp only [hlow, hlen, ↓reduceIte, Prod.mk.injEq] at h
          exact Or.inl ⟨p, ⟨hh, by simpa [hs] using hlt⟩, hlen, h.2.symm, h.1.symm⟩
        · simp only [hlow, hlen, ↓reduceIte, Prod.mk.injEq] at h
          exact Or.inr ⟨h.2.symm, h.1.symm, fun _ => Nat.not_lt.mp hlen⟩
      · simp only [hlow, Bool.false_eq_true, ↓reduceIte, Prod.mk.injEq] at h
        refine Or.inr ⟨h.2.symm, h.1.symm, fun ⟨r, hr, hlt⟩ => ?_⟩
        rw [huniq r hr, hs] at hlt
        exact absurd ((Priority.isLowerThan_iff _ _).mpr (hlt q rfl)) hlow

/-- The test of `Spawner::spawn` is the condition of `try_preempt`. -/
theorem shouldPend_iff {s : Shared N T V} {b : Bool} (h : s.shouldPend = some b) :
    b = true ↔ ∃ p, s.Preempts p := by
  obtain ⟨highest, hh, h⟩ := Option.map_eq_some_iff.mp h
  cases highest with
  | none =>
    subst h
    refine ⟨fun h => (by cases h), fun ⟨p, hp, _⟩ => ?_⟩
    rw [hh] at hp
    cases hp
  | some p =>
    have hex : (∃ r, s.Preempts r) ↔ ∀ q ∈ s.prioStack.head?, p < q.value := by
      refine ⟨fun ⟨r, hr, hlt⟩ => ?_, fun hlt => ⟨p, hh, hlt⟩⟩
      rw [hh] at hr
      obtain rfl := Option.some.inj (Option.some.inj hr)
      exact hlt
    rw [hex, ← h]
    cases hs : s.prioStack.head? with
    | none => simp
    | some q => simp [Priority.isHigherThan_iff]

theorem spawnLocked_some {s s' : Shared N T V} (h : s.spawnLocked = some s') :
    ((∃ p, s.Preempts p) ∧ s' = s.pend) ∨ ((¬ ∃ p, s.Preempts p) ∧ s' = s) := by
  obtain ⟨b, hb, rfl⟩ := Option.map_eq_some_iff.mp h
  rw [← shouldPend_iff hb]
  cases b
  · exact Or.inr ⟨by simp, rfl⟩
  · exact Or.inl ⟨rfl, rfl⟩

variable [DecidableEq T]

/-- The shared state after the push of `t` onto the queue of `e`. -/
def pushed (s : Shared N T V) (e : Fin N) (t : T) (bm : PriorityBitmap 64) : Shared N T V :=
  { s.setTask t { s.tasks t with executorPtr := some e } with
    queue := update s.queue e (s.queue e ++ [t])
    bitmap := bm }

theorem enqueueLocked_some {s s' : Shared N T V} {e : Fin N} {t : T}
    (h : s.enqueueLocked e t = some s') :
    ∃ bm, s.bitmap.set e = some bm ∧ s' = s.pushed e t bm := by
  obtain ⟨bm, hbm, rfl⟩ := Option.map_eq_some_iff.mp h
  exact ⟨bm, hbm, rfl⟩

theorem dequeueLocked_some {s s' : Shared N T V} {e : Fin N} {o : Option T}
    (h : s.dequeueLocked e = some (s', o)) :
    (∃ t ts, s.queue e = t :: ts ∧ o = some t ∧
      s' = { s.setTask t { s.tasks t with state := (s.tasks t).state.runDequeue } with
             queue := update s.queue e ts }) ∨
    (s.queue e = [] ∧ o = none ∧
      ∃ bm, s.bitmap.clear e = some bm ∧ s' = { s with bitmap := bm }) := by
  unfold dequeueLocked at h
  split at h
  · rename_i t ts hq
    obtain ⟨rfl, rfl⟩ := Prod.mk.inj (Option.some.inj h)
    exact Or.inl ⟨t, ts, hq, rfl, rfl⟩
  · rename_i hq
    obtain ⟨bm, hbm, he⟩ := Option.map_eq_some_iff.mp h
    obtain ⟨rfl, rfl⟩ := Prod.mk.inj he
    exact Or.inr ⟨hq, rfl, bm, hbm, rfl⟩

/-- `wake_task` in one go: the flag was clear and `w` is pushed and pended, or
nothing but the flag is written, which was set. -/
theorem wakeLocked_some {s s' : Shared N T V} {w : T} (h : s.wakeLocked w = some s') :
    ((s.tasks w).executorPtr = none ∧ s' = s) ∨
    ∃ e, (s.tasks w).executorPtr = some e ∧
      (((s.tasks w).state.runQueued = true ∧ s' = (s.runEnqueue w).1) ∨
        ((s.tasks w).state.runQueued = false ∧
          ∃ bm, s.bitmap.set e = some bm ∧ s' = ((s.runEnqueue w).1.pushed e w bm).pend)) := by
  unfold wakeLocked at h
  cases he : (s.tasks w).executorPtr with
  | none =>
    rw [he] at h
    exact Or.inl ⟨rfl, (Option.some.inj h).symm⟩
  | some e =>
    rw [he] at h
    refine Or.inr ⟨e, rfl, ?_⟩
    cases hq : (s.tasks w).state.runQueued with
    | true =>
      simp only [runEnqueue, State.runEnqueue, hq, Bool.not_true, Bool.false_eq_true,
        ↓reduceIte, Option.some.injEq] at h
      exact Or.inl ⟨rfl, h.symm⟩
    | false =>
      simp only [runEnqueue, State.runEnqueue, hq, Bool.not_false, ↓reduceIte] at h
      obtain ⟨s1, h1, rfl⟩ := Option.map_eq_some_iff.mp h
      obtain ⟨bm, hbm, rfl⟩ := enqueueLocked_some h1
      exact Or.inr ⟨rfl, bm, hbm, rfl⟩

/-- The task header after the despawn of `notify`. -/
def despawned (s : Shared N T V) (t : T) : Shared N T V :=
  s.setTask t { s.tasks t with
    state := (s.tasks t).state.despawn, join := { (s.tasks t).join with waker := none } }

theorem notifyLocked_some {s s' : Shared N T V} {t : T} (h : s.notifyLocked t = some s') :
    ((s.tasks t).join.waker = none ∧ s' = s.despawned t) ∨
    ∃ w, (s.tasks t).join.waker = some w ∧ (s.despawned t).wakeLocked w = some s' := by
  unfold notifyLocked at h
  simp only at h
  split at h
  · rename_i hw
    exact Or.inl ⟨hw, (Option.some.inj h).symm⟩
  · rename_i w hw
    exact Or.inr ⟨w, hw, h⟩

end Shared

/-! ### The calls -/

section Calls

variable [DecidableEq T]

/-- The next access of a call, by what it finds: the shared state after it and
what is left of the call. -/
inductive CallNext (s : Shared N T V) : Call N T → Shared N T V → Option (Call N T) → Prop
  | wakeNull {t : T} : (s.tasks t).executorPtr = none → CallNext s (.wake t) s none
  | wake {t : T} {e : Fin N} : (s.tasks t).executorPtr = some e →
      CallNext s (.wake t) s (some (.wakeFlag t e))
  | wakeSkip {t : T} (e : Fin N) : (s.tasks t).state.runQueued = true →
      CallNext s (.wakeFlag t e) (s.runEnqueue t).1 none
  | wakeFlag {t : T} (e : Fin N) : (s.tasks t).state.runQueued = false →
      CallNext s (.wakeFlag t e) (s.runEnqueue t).1 (some (.wakePush t e))
  | wakePush {t : T} {e : Fin N} {bm : PriorityBitmap 64} : s.bitmap.set e = some bm →
      CallNext s (.wakePush t e) (s.pushed e t bm) (some .pendMark)
  | pendMark : CallNext s .pendMark { s with pendMarker := true } (some .pendSend)
  | pendSend : CallNext s .pendSend { s with msip := true } none
  | spawnSkip {t : T} (e : Fin N) : (s.tasks t).state.runQueued = true →
      CallNext s (.spawnFlag e t) (s.runEnqueue t).1 none
  | spawnFlag {t : T} (e : Fin N) : (s.tasks t).state.runQueued = false →
      CallNext s (.spawnFlag e t) (s.runEnqueue t).1 (some (.spawnPush e t))
  | spawnPush {t : T} {e : Fin N} {bm : PriorityBitmap 64} : s.bitmap.set e = some bm →
      CallNext s (.spawnPush e t) (s.pushed e t bm) (some .spawnPend)
  | spawnPend : (∃ p, s.Preempts p) → CallNext s .spawnPend s.pend none
  | spawnQuiet : (¬ ∃ p, s.Preempts p) → CallNext s .spawnPend s none
  | storageBusy {t : T} : (s.tasks t).state.spawned = true →
      CallNext s (.storageFlag t)
        (s.setTask t { s.tasks t with state := (s.tasks t).state.spawn.1 }) none
  | storageFlag {t : T} : (s.tasks t).state.spawned = false →
      CallNext s (.storageFlag t)
        (s.setTask t { s.tasks t with state := (s.tasks t).state.spawn.1 })
        (some (.storageResult t))
  | storageResult (t : T) : CallNext s (.storageResult t)
      (s.setTask t { s.tasks t with join := { (s.tasks t).join with result := none } })
      (some (.storageWaker t))
  | storageWaker (t : T) : CallNext s (.storageWaker t)
      (s.setTask t { s.tasks t with join := { (s.tasks t).join with waker := none } })
      (some (.storageFn t))
  | storageFn (t : T) : CallNext s (.storageFn t)
      (s.setTask t { s.tasks t with pollFn := some .poll }) (some (.storageWrite t))
  | storageWrite (t : T) : CallNext s (.storageWrite t)
      { s.setTask t { s.tasks t with slot := .live } with
        tokens := update s.tokens t (s.tokens t + 1) } none
  | joinTake {t : T} (w : T) {v : V} : (s.tasks t).join.result = some v →
      CallNext s (.joinTake t w)
        (s.setTask t { s.tasks t with join := { (s.tasks t).join with result := none } }) none
  | joinWait {t : T} (w : T) : (s.tasks t).join.result = none →
      CallNext s (.joinTake t w) s (some (.joinStore t w))
  | joinStore (t w : T) : CallNext s (.joinStore t w)
      (s.setTask t { s.tasks t with join := { (s.tasks t).join with waker := some w } }) none

theorem callStep_next {s s' : Shared N T V} {c : Call N T} {c' : Option (Call N T)}
    (h : callStep s c = some (s', c')) : CallNext s c s' c' := by
  cases c with
  | wake t =>
    obtain ⟨rfl, rfl⟩ := Prod.mk.inj (Option.some.inj h)
    cases he : (s.tasks t).executorPtr with
    | none => exact .wakeNull he
    | some e => exact .wake he
  | wakeFlag t e =>
    obtain ⟨rfl, rfl⟩ := Prod.mk.inj (Option.some.inj h)
    cases hq : (s.tasks t).state.runQueued with
    | true => simpa [Shared.runEnqueue, State.runEnqueue, hq] using CallNext.wakeSkip e hq
    | false => simpa [Shared.runEnqueue, State.runEnqueue, hq] using CallNext.wakeFlag e hq
  | spawnFlag e t =>
    obtain ⟨rfl, rfl⟩ := Prod.mk.inj (Option.some.inj h)
    cases hq : (s.tasks t).state.runQueued with
    | true => simpa [Shared.runEnqueue, State.runEnqueue, hq] using CallNext.spawnSkip e hq
    | false => simpa [Shared.runEnqueue, State.runEnqueue, hq] using CallNext.spawnFlag e hq
  | wakePush t e =>
    obtain ⟨s1, h1, h⟩ := Option.map_eq_some_iff.mp h
    obtain ⟨rfl, rfl⟩ := Prod.mk.inj h
    obtain ⟨bm, hbm, rfl⟩ := Shared.enqueueLocked_some h1
    exact .wakePush hbm
  | spawnPush e t =>
    obtain ⟨s1, h1, h⟩ := Option.map_eq_some_iff.mp h
    obtain ⟨rfl, rfl⟩ := Prod.mk.inj h
    obtain ⟨bm, hbm, rfl⟩ := Shared.enqueueLocked_some h1
    exact .spawnPush hbm
  | spawnPend =>
    obtain ⟨s1, h1, h⟩ := Option.map_eq_some_iff.mp h
    obtain ⟨rfl, rfl⟩ := Prod.mk.inj h
    rcases Shared.spawnLocked_some h1 with ⟨hp, rfl⟩ | ⟨hno, rfl⟩
    · exact .spawnPend hp
    · exact .spawnQuiet hno
  | storageFlag t =>
    obtain ⟨rfl, rfl⟩ := Prod.mk.inj (Option.some.inj h)
    cases hs : (s.tasks t).state.spawned with
    | true => simpa [State.spawn, hs] using CallNext.storageBusy hs
    | false => simpa [State.spawn, hs] using CallNext.storageFlag hs
  | joinTake t w =>
    unfold callStep at h
    simp only at h
    split at h
    · rename_i v hv
      obtain ⟨rfl, rfl⟩ := Prod.mk.inj (Option.some.inj h)
      exact .joinTake w hv
    · rename_i hv
      obtain ⟨rfl, rfl⟩ := Prod.mk.inj (Option.some.inj h)
      exact .joinWait w hv
  | pendMark =>
    obtain ⟨rfl, rfl⟩ := Prod.mk.inj (Option.some.inj h)
    exact .pendMark
  | pendSend =>
    obtain ⟨rfl, rfl⟩ := Prod.mk.inj (Option.some.inj h)
    exact .pendSend
  | storageResult t =>
    obtain ⟨rfl, rfl⟩ := Prod.mk.inj (Option.some.inj h)
    exact .storageResult t
  | storageWaker t =>
    obtain ⟨rfl, rfl⟩ := Prod.mk.inj (Option.some.inj h)
    exact .storageWaker t
  | storageFn t =>
    obtain ⟨rfl, rfl⟩ := Prod.mk.inj (Option.some.inj h)
    exact .storageFn t
  | storageWrite t =>
    obtain ⟨rfl, rfl⟩ := Prod.mk.inj (Option.some.inj h)
    exact .storageWrite t
  | joinStore t w =>
    obtain ⟨rfl, rfl⟩ := Prod.mk.inj (Option.some.inj h)
    exact .joinStore t w

/-- A call begins. -/
inductive RequestNext (s : Shared N T V) : Request T → Shared N T V → Call N T → Prop
  | wake (t : T) : RequestNext s (.wake t) s (.wake t)
  | spawn {prio : Priority} {t : T} (h : prio.value < N) : 0 < s.tokens t →
      RequestNext s (.spawn prio t) { s with tokens := update s.tokens t (s.tokens t - 1) }
        (.spawnFlag ⟨prio.value, h⟩ t)
  | storageSpawn (t : T) : RequestNext s (.storageSpawn t) s (.storageFlag t)
  | joinPoll (t w : T) : RequestNext s (.joinPoll t w) s (.joinTake t w)

theorem callStart_next {s s' : Shared N T V} {r : Request T} {c : Call N T}
    (h : callStart s r = some (s', c)) : RequestNext s r s' c := by
  cases r with
  | wake t =>
    obtain ⟨rfl, rfl⟩ := Prod.mk.inj (Option.some.inj h)
    exact .wake t
  | storageSpawn t =>
    obtain ⟨rfl, rfl⟩ := Prod.mk.inj (Option.some.inj h)
    exact .storageSpawn t
  | joinPoll t w =>
    obtain ⟨rfl, rfl⟩ := Prod.mk.inj (Option.some.inj h)
    exact .joinPoll t w
  | spawn prio t =>
    unfold callStart at h
    simp only at h
    split at h
    · rename_i hprio
      split at h
      · rename_i htok
        obtain ⟨rfl, rfl⟩ := Prod.mk.inj (Option.some.inj h)
        exact .spawn hprio htok
      · cases h
    · cases h

end Calls

/-! ### The activations -/

namespace Frame

/-- The `RunToken` an activation holds, from `try_preempt` to
`complete_executor`. -/
def token : Frame N T V → Option Priority
  | enable rt => some rt
  | run e _ => some ⟨e⟩
  | disable e => some ⟨e⟩
  | completeExecutor e => some ⟨e⟩
  | _ => none

/-- Interrupts can be enabled while the activation is at this statement. -/
def interruptible : Frame N T V → Bool
  | base _ => true
  | isr _ => true
  | run _ _ => true
  | disable _ => true
  | _ => false

/-- The call in progress. -/
def calling (f : Frame N T V) : Option (Call N T) := f.user.getD none

theorem calling_eq {f : Frame N T V} {c : Option (Call N T)} (h : f.user = some c) :
    f.calling = c := by
  rw [calling, h, Option.getD_some]

theorem user_of_calling {f : Frame N T V} {c : Call N T} (h : f.calling = some c) :
    f.user = some (some c) := by
  unfold calling at h
  cases hu : f.user with
  | none =>
    rw [hu] at h
    cases h
  | some c' =>
    rw [hu] at h
    exact congrArg some h

/-- A frame of user code is one of five. -/
theorem user_cases {f : Frame N T V} {c : Option (Call N T)} (h : f.user = some c) :
    f = base c ∨ f = isr c ∨ f = hook c ∨
      (∃ e t, f = run e (.poll t c)) ∨ ∃ e t, f = run e (.dropInPlace t c) := by
  unfold user at h
  split at h <;> simp_all

@[simp] theorem setCall_user {f : Frame N T V} {c : Option (Call N T)} (h : f.user = some c)
    (c' : Option (Call N T)) : (f.setCall c').user = some c' := by
  rcases user_cases h with rfl | rfl | rfl | ⟨e, t, rfl⟩ | ⟨e, t, rfl⟩ <;> rfl

theorem setCall_calling {f : Frame N T V} {c : Option (Call N T)} (h : f.user = some c)
    (c' : Option (Call N T)) : (f.setCall c').calling = c' :=
  calling_eq (setCall_user h c')

@[simp] theorem setCall_token (f : Frame N T V) (c : Option (Call N T)) :
    (f.setCall c).token = f.token := by
  unfold setCall
  split <;> rfl

theorem setCall_tokens (f : Frame N T V) (c : Option (Call N T)) :
    [f.setCall c].filterMap token = [f].filterMap token := by
  rw [List.filterMap_cons, List.filterMap_cons, setCall_token]

@[simp] theorem setCall_interruptible (f : Frame N T V) (c : Option (Call N T)) :
    (f.setCall c).interruptible = f.interruptible := by
  unfold setCall
  split <;> rfl

end Frame

variable [DecidableEq T]

/-- One event at the innermost activation `f`: the shared state becomes `s'`
and the frames `gs` stand in for `f`. -/
inductive Next (s : Shared N T V) : Frame N T V → Event T V → Shared N T V →
    List (Frame N T V) → Prop
  | call {f : Frame N T V} {c : Call N T} {s' : Shared N T V} {c' : Option (Call N T)} :
      f.user = some (some c) → callStep s c = some (s', c') → Next s f .tick s' [f.setCall c']
  | begin {f : Frame N T V} {r : Request T} {s' : Shared N T V} {c : Call N T} :
      f.user = some none → callStart s r = some (s', c) →
      Next s f (.call r) s' [f.setCall (some c)]
  | setMie {f : Frame N T V} (b : Bool) : f.user = some none → f.interruptible = true →
      Next s f (.setMie b) { s with mie := b } [f]
  | trapSoft {f : Frame N T V} : s.mie = true → s.msip = true →
      Next s f .trapSoft { s with mie := false } [.hook none, f]
  | trapIsr {f : Frame N T V} : s.mie = true →
      Next s f .trapIsr { s with mie := false } [.isr none, f]
  | external {f : Frame N T V} : Next s f .external { s with msip := true } [f]
  | isrRet : Next s (.isr none) .ret { s with mie := true } []
  | hookRet : Next s (.hook none) .ret s [.swap]
  | swap : Next s .swap .tick { s with pendMarker := false } [.clear s.pendMarker]
  | clear (sys : Bool) : Next s (.clear sys) .tick { s with msip := false }
      [if sys then .tryPreempt else .mret]
  | preempt {p : ℕ} : s.Preempts p → s.prioStack.length < N →
      Next s .tryPreempt .tick { s with prioStack := ⟨p⟩ :: s.prioStack } [.enable ⟨p⟩]
  | noPreempt : ((∃ p, s.Preempts p) → N ≤ s.prioStack.length) →
      Next s .tryPreempt .tick s [.mret]
  | enable {rt : Priority} (h : rt.value < N) :
      Next s (.enable rt) .tick { s with mie := true } [.run ⟨rt.value, h⟩ .start]
  | runStart (e : Fin N) : Next s (.run e .start) .tick s [.run e .top]
  | dequeue {e : Fin N} {t : T} {ts : List T} : s.queue e = t :: ts →
      Next s (.run e .top) .tick
        { s.setTask t { s.tasks t with state := (s.tasks t).state.runDequeue } with
          queue := update s.queue e ts } [.run e (.got t)]
  | drained {e : Fin N} {bm : PriorityBitmap 64} : s.queue e = [] → s.bitmap.clear e = some bm →
      Next s (.run e .top) .tick { s with bitmap := bm } [.disable e]
  | gotPoll {e : Fin N} {t : T} : (s.tasks t).pollFn = some .poll →
      Next s (.run e (.got t)) .tick s [.run e (.poll t none)]
  | gotExited {e : Fin N} {t : T} : (s.tasks t).pollFn = some .pollExited →
      Next s (.run e (.got t)) .tick s [.run e .top]
  | pending (e : Fin N) (t : T) : Next s (.run e (.poll t none)) .pending s [.run e .top]
  | ready (e : Fin N) (t : T) (v : V) : Next s (.run e (.poll t none)) (.ready v)
      (s.setTask t { s.tasks t with slot := .finished }) [.run e (.storeResult t v)]
  | storeResult (e : Fin N) (t : T) (v : V) : Next s (.run e (.storeResult t v)) .tick
      (s.setTask t { s.tasks t with join := { (s.tasks t).join with result := some v } })
      [.run e (.storeNull t)]
  | storeNull (e : Fin N) (t : T) : Next s (.run e (.storeNull t)) .tick
      (s.setTask t { s.tasks t with executorPtr := none }) [.run e (.dropInPlace t none)]
  | dropInPlace (e : Fin N) (t : T) : Next s (.run e (.dropInPlace t none)) .ret
      (s.setTask t { s.tasks t with slot := .dropped }) [.run e (.storeExited t)]
  | storeExited (e : Fin N) (t : T) : Next s (.run e (.storeExited t)) .tick
      (s.setTask t { s.tasks t with pollFn := some .pollExited }) [.run e (.notify t)]
  | notify {e : Fin N} {t : T} {s' : Shared N T V} : s.notifyLocked t = some s' →
      Next s (.run e (.notify t)) .tick s' [.run e .top]
  | disable (e : Fin N) : Next s (.disable e) .tick { s with mie := false } [.completeExecutor e]
  | complete (e : Fin N) : Next s (.completeExecutor e) .tick s.completeExecutor [.tryPreempt]
  | mret : Next s .mret .tick { s with mie := true } []

theorem runStep_next {s s' : Shared N T V} {e : Fin N} {r : RunPc N T V} {f : Frame N T V}
    (h : runStep s e r = some (s', f)) : Next s (.run e r) .tick s' [f] := by
  cases r with
  | start =>
    obtain ⟨rfl, rfl⟩ := Prod.mk.inj (Option.some.inj h)
    exact .runStart e
  | top =>
    obtain ⟨⟨s1, o⟩, h1, h⟩ := Option.map_eq_some_iff.mp h
    rcases Shared.dequeueLocked_some h1 with ⟨t, ts, hq, rfl, rfl⟩ | ⟨hq, rfl, bm, hbm, rfl⟩
    · obtain ⟨rfl, rfl⟩ := Prod.mk.inj h
      exact .dequeue hq
    · obtain ⟨rfl, rfl⟩ := Prod.mk.inj h
      exact .drained hq hbm
  | got t =>
    unfold runStep at h
    simp only at h
    split at h
    · cases h
    · rename_i hp
      obtain ⟨rfl, rfl⟩ := Prod.mk.inj (Option.some.inj h)
      exact .gotPoll hp
    · rename_i hp
      obtain ⟨rfl, rfl⟩ := Prod.mk.inj (Option.some.inj h)
      exact .gotExited hp
  | poll t c => cases h
  | storeResult t v =>
    obtain ⟨rfl, rfl⟩ := Prod.mk.inj (Option.some.inj h)
    exact .storeResult e t v
  | storeNull t =>
    obtain ⟨rfl, rfl⟩ := Prod.mk.inj (Option.some.inj h)
    exact .storeNull e t
  | dropInPlace t c => cases h
  | storeExited t =>
    obtain ⟨rfl, rfl⟩ := Prod.mk.inj (Option.some.inj h)
    exact .storeExited e t
  | notify t =>
    obtain ⟨s1, h1, h⟩ := Option.map_eq_some_iff.mp h
    obtain ⟨rfl, rfl⟩ := Prod.mk.inj h
    exact .notify h1

theorem tickStep_next {s s' : Shared N T V} {f : Frame N T V} {gs : List (Frame N T V)}
    (h : tickStep s f = some (s', gs)) : Next s f .tick s' gs := by
  unfold tickStep at h
  split at h
  · rename_i c hu
    obtain ⟨⟨s1, c1⟩, h1, h⟩ := Option.map_eq_some_iff.mp h
    obtain ⟨rfl, rfl⟩ := Prod.mk.inj h
    exact .call hu h1
  · cases h
  · split at h
    · obtain ⟨rfl, rfl⟩ := Prod.mk.inj (Option.some.inj h)
      exact .swap
    · obtain ⟨rfl, rfl⟩ := Prod.mk.inj (Option.some.inj h)
      exact .clear _
    · obtain ⟨⟨s1, o⟩, h1, h2⟩ := Option.map_eq_some_iff.mp h
      rcases Shared.tryPreempt_some h1 with ⟨p, hp, hlen, rfl, rfl⟩ | ⟨rfl, rfl, hfull⟩
      · obtain ⟨rfl, rfl⟩ := Prod.mk.inj h2
        exact .preempt hp hlen
      · obtain ⟨rfl, rfl⟩ := Prod.mk.inj h2
        exact .noPreempt hfull
    · split at h
      · rename_i hlt
        obtain ⟨rfl, rfl⟩ := Prod.mk.inj (Option.some.inj h)
        exact .enable hlt
      · cases h
    · obtain ⟨⟨s1, f1⟩, h1, h⟩ := Option.map_eq_some_iff.mp h
      obtain ⟨rfl, rfl⟩ := Prod.mk.inj h
      exact runStep_next h1
    · obtain ⟨rfl, rfl⟩ := Prod.mk.inj (Option.some.inj h)
      exact .disable _
    · obtain ⟨rfl, rfl⟩ := Prod.mk.inj (Option.some.inj h)
      exact .complete _
    · obtain ⟨rfl, rfl⟩ := Prod.mk.inj (Option.some.inj h)
      exact .mret
    · cases h

theorem frameStep_next {s s' : Shared N T V} {f : Frame N T V} {ev : Event T V}
    {gs : List (Frame N T V)} (h : frameStep s f ev = some (s', gs)) : Next s f ev s' gs := by
  cases ev with
  | tick => exact tickStep_next h
  | call r =>
    unfold frameStep at h
    simp only at h
    split at h
    · rename_i hu
      obtain ⟨⟨s1, c1⟩, h1, h⟩ := Option.map_eq_some_iff.mp h
      obtain ⟨rfl, rfl⟩ := Prod.mk.inj h
      exact .begin hu h1
    · cases h
  | ret =>
    unfold frameStep at h
    simp only at h
    split at h
    · obtain ⟨rfl, rfl⟩ := Prod.mk.inj (Option.some.inj h)
      exact .isrRet
    · obtain ⟨rfl, rfl⟩ := Prod.mk.inj (Option.some.inj h)
      exact .hookRet
    · obtain ⟨rfl, rfl⟩ := Prod.mk.inj (Option.some.inj h)
      exact .dropInPlace _ _
    · cases h
  | pending =>
    unfold frameStep at h
    simp only at h
    split at h
    · obtain ⟨rfl, rfl⟩ := Prod.mk.inj (Option.some.inj h)
      exact .pending _ _
    · cases h
  | ready v =>
    unfold frameStep at h
    simp only at h
    split at h
    · obtain ⟨rfl, rfl⟩ := Prod.mk.inj (Option.some.inj h)
      exact .ready _ _ _
    · cases h
  | setMie b =>
    unfold frameStep at h
    simp only at h
    split at h
    · obtain ⟨rfl, rfl⟩ := Prod.mk.inj (Option.some.inj h)
      exact .setMie b rfl rfl
    · obtain ⟨rfl, rfl⟩ := Prod.mk.inj (Option.some.inj h)
      exact .setMie b rfl rfl
    · obtain ⟨rfl, rfl⟩ := Prod.mk.inj (Option.some.inj h)
      exact .setMie b rfl rfl
    · cases h
  | trapSoft =>
    unfold frameStep at h
    simp only at h
    split at h
    · rename_i hc
      obtain ⟨rfl, rfl⟩ := Prod.mk.inj (Option.some.inj h)
      rw [Bool.and_eq_true] at hc
      exact .trapSoft hc.1 hc.2
    · cases h
  | trapIsr =>
    unfold frameStep at h
    simp only at h
    split at h
    · rename_i hc
      obtain ⟨rfl, rfl⟩ := Prod.mk.inj (Option.some.inj h)
      exact .trapIsr hc
    · cases h
  | external =>
    obtain ⟨rfl, rfl⟩ := Prod.mk.inj (Option.some.inj h)
    exact .external

/-- A frame that a step leaves is the activation itself, a handler just entered,
or all that the step leaves. -/
theorem Next.mem_frames {s s' : Shared N T V} {f g : Frame N T V} {ev : Event T V}
    {gs : List (Frame N T V)} (h : Next s f ev s' gs) (hg : g ∈ gs) :
    g = f ∨ g = .hook none ∨ g = .isr none ∨ gs = [g] := by
  cases h with
  | trapSoft =>
    rcases List.mem_cons.mp hg with rfl | hg
    · exact Or.inr (Or.inl rfl)
    · exact Or.inl (List.mem_singleton.mp hg)
  | trapIsr =>
    rcases List.mem_cons.mp hg with rfl | hg
    · exact Or.inr (Or.inr (Or.inl rfl))
    · exact Or.inl (List.mem_singleton.mp hg)
  | isrRet => cases hg
  | mret => cases hg
  | _ => exact Or.inr (Or.inr (Or.inr (by rw [List.mem_singleton.mp hg])))

/-- The next access of an activation in a call is an access of the call. -/
theorem Next.calling {s s' : Shared N T V} {f : Frame N T V} {gs : List (Frame N T V)}
    {c : Call N T} (h : Next s f .tick s' gs) (hc : f.calling = some c) :
    ∃ c', callStep s c = some (s', c') ∧ gs = [f.setCall c'] := by
  cases h with
  | call hu hstep =>
    rw [Frame.calling_eq hu] at hc
    obtain rfl := Option.some.inj hc
    exact ⟨_, hstep, rfl⟩
  | _ => cases hc

/-- An activation inside a call makes the next access of the call, or is
interrupted. -/
theorem Next.of_calling {s s' : Shared N T V} {f : Frame N T V} {ev : Event T V}
    {gs : List (Frame N T V)} {c : Call N T} (hf : f.user = some (some c)) (h : Next s f ev s' gs) :
    (ev = .tick ∧ ∃ c', callStep s c = some (s', c')) ∨ ∃ hs, gs = hs ++ [f] := by
  cases h with
  | call hu hc =>
    obtain rfl := Option.some.inj (Option.some.inj (hf.symm.trans hu))
    exact Or.inl ⟨rfl, _, hc⟩
  | begin hu hc => cases hf.symm.trans hu
  | setMie b hu hi => cases hf.symm.trans hu
  | trapSoft => exact Or.inr ⟨[.hook none], rfl⟩
  | trapIsr => exact Or.inr ⟨[.isr none], rfl⟩
  | external => exact Or.inr ⟨[], rfl⟩
  | clear sys => cases hf
  | _ => cases hf

namespace Kernel

/-- A step of the hart is a step of its innermost activation. -/
theorem step_next {k k' : Kernel N T V} {ev : Event T V} (h : step k ev = some k') :
    ∃ f fs s' gs, k = ⟨k.shared, f :: fs⟩ ∧ k' = ⟨s', gs ++ fs⟩ ∧ Next k.shared f ev s' gs := by
  obtain ⟨s, frames⟩ := k
  cases frames with
  | nil => cases h
  | cons f fs =>
    obtain ⟨⟨s', gs⟩, h1, h⟩ := Option.map_eq_some_iff.mp h
    exact ⟨f, fs, s', gs, rfl, h.symm, frameStep_next h1⟩

theorem next_of_frames {k k' : Kernel N T V} {ev : Event T V} {f : Frame N T V}
    {fs : List (Frame N T V)} (hframes : k.frames = f :: fs) (h : step k ev = some k') :
    ∃ s' gs, k' = ⟨s', gs ++ fs⟩ ∧ Next k.shared f ev s' gs := by
  obtain ⟨f', fs', s', gs, hk, rfl, hnext⟩ := step_next h
  obtain ⟨rfl, rfl⟩ := List.cons.inj ((congrArg Kernel.frames hk).symm.trans hframes)
  exact ⟨s', gs, rfl, hnext⟩

end Kernel
end RtAsync

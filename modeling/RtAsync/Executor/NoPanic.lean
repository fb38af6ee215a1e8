/-
# The executor does not panic

`Executor::run` unwraps `poll_fn`. `TaskStorage::spawn` stores it before it
hands out the token, and nobody takes it back; a task gets into a queue by its
token or by its back-pointer, which the first enqueue sets. So the `unwrap`
never panics. The indices into the bitmap and into `executors` are priorities
below `N`, which `Spawner::new` asserts to be at most 4096. An activation that
is not in user code can always make its next access.

Key definitions: `Shared.Armed`, `Shared.Known`, `Frame.subject`,
`Kernel.Launched`.
Key theorems: `Next.armed`, `Next.known`, `Next.subject`, `Kernel.launched`,
`callStep_isSome`, `runStep_isSome`, `Kernel.tick_isSome`.
-/
import RtAsync.Executor.Nesting

namespace RtAsync

open Function (update update_self update_of_ne)

variable {N : ℕ} {T V : Type}

/-! ### Who may be dequeued -/

/-- `poll_fn` is set. -/
def Shared.Armed (s : Shared N T V) (t : T) : Prop := (s.tasks t).pollFn ≠ none

/-- The task has a token, a back-pointer or a place in a queue. -/
def Shared.Known (s : Shared N T V) (t : T) : Prop :=
  0 < s.tokens t ∨ s.ptr t ≠ none ∨ ∃ e, t ∈ s.queue e

/-- The task that a call is about to hand a token or to enqueue. -/
def Call.subject : Call N T → Option T
  | .wakeFlag t _ => some t
  | .wakePush t _ => some t
  | .spawnFlag _ t => some t
  | .spawnPush _ t => some t
  | .storageWrite t => some t
  | _ => none

/-- The task that an activation has dequeued, or that its call is about. -/
def Frame.subject (f : Frame N T V) : Option T :=
  match f with
  | .run _ (.got t) => some t
  | f => f.calling.bind Call.subject

theorem Frame.subject_user {f : Frame N T V} {c : Option (Call N T)} (h : f.user = some c) :
    f.subject = c.bind Call.subject := by
  rcases user_cases h with rfl | rfl | rfl | ⟨e, t, rfl⟩ | ⟨e, t, rfl⟩ <;> rfl

variable [DecidableEq T]

section Effects

variable {s s' : Shared N T V}

theorem Shared.Armed.setTask {t u : T} {i : TaskInfo N T V} (h : s.Armed u)
    (hi : t = u → (s.tasks t).pollFn ≠ none → i.pollFn ≠ none) : (s.setTask t i).Armed u := by
  unfold Shared.Armed Shared.setTask at *
  by_cases hu : u = t
  · subst hu
    simpa using hi rfl h
  · simpa [hu] using h

theorem Shared.wakeLocked_armed {w u : T} (h : s.wakeLocked w = some s') (hu : s.Armed u) :
    s'.Armed u := by
  have hflag : (s.runEnqueue w).1.Armed u := hu.setTask fun _ h => h
  rcases Shared.wakeLocked_some h with ⟨-, rfl⟩ | ⟨e, -, ⟨-, rfl⟩ | ⟨-, bm, -, rfl⟩⟩
  · exact hu
  · exact hflag
  · exact hflag.setTask (s := (s.runEnqueue w).1) fun _ h => h

/-- Nobody takes `poll_fn` back. -/
theorem callStep_armed {c : Call N T} {c' : Option (Call N T)} {u : T}
    (h : callStep s c = some (s', c')) (hu : s.Armed u) : s'.Armed u := by
  cases callStep_next h with
  | storageFn t => exact hu.setTask fun _ _ => by simp
  | wakeNull => exact hu
  | wake => exact hu
  | pendMark => exact hu
  | pendSend => exact hu
  | spawnPend => exact hu
  | spawnQuiet => exact hu
  | joinWait => exact hu
  | _ => exact hu.setTask fun _ h => h

theorem Next.armed {f : Frame N T V} {ev : Event T V} {gs : List (Frame N T V)} {u : T}
    (h : Next s f ev s' gs) (hu : s.Armed u) : s'.Armed u := by
  cases h with
  | call _ hc => exact callStep_armed hc hu
  | begin _ hc =>
    obtain ⟨⟨tk, rfl⟩, -⟩ := callStart_shared hc
    exact hu
  | dequeue => exact hu.setTask fun _ h => h
  | ready => exact hu.setTask fun _ h => h
  | storeResult => exact hu.setTask fun _ h => h
  | storeNull => exact hu.setTask fun _ h => h
  | dropInPlace => exact hu.setTask fun _ h => h
  | storeExited => exact hu.setTask fun _ _ => by simp
  | notify hn =>
    have hdespawned : ∀ t, (s.despawned t).Armed u := fun t => hu.setTask fun _ h => h
    rcases Shared.notifyLocked_some hn with ⟨-, rfl⟩ | ⟨w, -, hw⟩
    · exact hdespawned _
    · exact Shared.wakeLocked_armed hw (hdespawned _)
  | _ => exact hu

omit [DecidableEq T] in
theorem Call.subject_of_push {c : Call N T} {t : T} {e : Fin N} (h : c.push = some (t, e)) :
    c.subject = some t := by
  cases c with
  | wakePush u q =>
    obtain ⟨rfl, rfl⟩ := Prod.mk.inj (Option.some.inj h)
    rfl
  | spawnPush q u =>
    obtain ⟨rfl, rfl⟩ := Prod.mk.inj (Option.some.inj h)
    rfl
  | _ => cases h

omit [DecidableEq T] in
theorem Frame.subject_of_push {f : Frame N T V} {t : T} {e : Fin N} (h : f.push = some (t, e)) :
    f.subject = some t := by
  obtain ⟨c, hc, hp⟩ := Option.bind_eq_some_iff.mp h
  rw [Frame.subject_user (Frame.user_of_calling hc), Option.bind_some, Call.subject_of_push hp]

/-- A token is made by the write of the future. -/
theorem Next.token {f : Frame N T V} {ev : Event T V} {gs : List (Frame N T V)} {t : T}
    (h : Next s f ev s' gs) (ht : 0 < s'.tokens t) : 0 < s.tokens t ∨ f.subject = some t := by
  cases h with
  | call hu hc =>
    cases callStep_next hc with
    | storageWrite u =>
      by_cases htu : t = u
      · rw [htu, Frame.subject_user hu]
        exact Or.inr rfl
      · have hsame : update s.tokens u (s.tokens u + 1) t = s.tokens t := update_of_ne htu _ _
        exact Or.inl (hsame ▸ ht)
    | _ => exact Or.inl ht
  | begin _ hc =>
    cases callStart_next hc with
    | spawn hlt htok =>
      rename_i u
      by_cases htu : t = u
      · exact Or.inl (htu ▸ htok)
      · have hsame : update s.tokens u (s.tokens u - 1) t = s.tokens t := update_of_ne htu _ _
        exact Or.inl (hsame ▸ ht)
    | _ => exact Or.inl ht
  | notify hn =>
    rcases Shared.notifyLocked_some hn with ⟨-, rfl⟩ | ⟨w, -, hw⟩
    · exact Or.inl ht
    · rcases Shared.wakeLocked_some hw with ⟨-, rfl⟩ | ⟨e, -, ⟨-, rfl⟩ | ⟨-, bm, -, rfl⟩⟩
      · exact Or.inl ht
      · exact Or.inl ht
      · exact Or.inl ht
  | _ => exact Or.inl ht

/-- A step makes no task known but its own. -/
theorem Next.known {f : Frame N T V} {ev : Event T V} {gs : List (Frame N T V)} {t : T}
    (h : Next s f ev s' gs) (ht : s'.Known t) : s.Known t ∨ f.subject = some t := by
  rcases ht with ht | ht | ⟨e, ht⟩
  · exact (h.token ht).imp_left Or.inl
  · obtain ⟨e, he⟩ := Option.ne_none_iff_exists'.mp ht
    rcases h.ptr_some he with hp | hf
    · exact Or.inl (Or.inr (Or.inl (by simp [hp])))
    · exact Or.inr (Frame.subject_of_push hf)
  · rcases h.linked ht with hq | hf | ⟨-, hp⟩
    · exact Or.inl (Or.inr (Or.inr ⟨e, hq⟩))
    · exact Or.inr (Frame.subject_of_push hf)
    · exact Or.inl (Or.inr (Or.inl (by simp [hp])))

/-- An activation goes on to a task that was known, that it was at before, or
whose poll function it has just stored. -/
theorem Next.subject {f g : Frame N T V} {ev : Event T V} {gs : List (Frame N T V)} {t : T}
    (h : Next s f ev s' gs) (hg : g ∈ gs) (ht : g.subject = some t) :
    s.Known t ∨ f.subject = some t ∨ s'.Armed t := by
  rcases h.mem_frames hg with rfl | rfl | rfl | rfl
  · exact Or.inr (Or.inl ht)
  · cases ht
  · cases ht
  cases h with
  | call hu hc =>
    rw [Frame.subject_user (Frame.setCall_user hu _)] at ht
    rw [Frame.subject_user hu]
    cases callStep_next hc with
    | wake hptr =>
      obtain rfl := Option.some.inj ht
      exact Or.inl (Or.inr (Or.inl fun hnone => by
        rw [Shared.ptr, hptr] at hnone
        cases hnone))
    | wakeFlag => exact Or.inr (Or.inl ht)
    | spawnFlag => exact Or.inr (Or.inl ht)
    | storageFn u =>
      obtain rfl := Option.some.inj ht
      refine Or.inr (Or.inr ?_)
      simp [Shared.Armed, Shared.setTask]
    | _ => cases ht
  | begin hu hc =>
    rw [Frame.subject_user (Frame.setCall_user hu _)] at ht
    cases callStart_next hc with
    | spawn hlt htok =>
      obtain rfl := Option.some.inj ht
      exact Or.inl (Or.inl htok)
    | _ => cases ht
  | setMie => exact Or.inr (Or.inl ht)
  | external => exact Or.inr (Or.inl ht)
  | clear sys => cases sys <;> cases ht
  | dequeue hq =>
    obtain rfl := Option.some.inj ht
    exact Or.inl (Or.inr (Or.inr ⟨_, by rw [hq]; exact List.mem_cons_self⟩))
  | _ => cases ht

end Effects

/-! ### The invariant -/

namespace Kernel

/-- Whoever is known, or dequeued, or about to be enqueued, has a poll
function. -/
def Launched (k : Kernel N T V) : Prop :=
  ∀ t, (k.shared.Known t ∨ ∃ f ∈ k.frames, f.subject = some t) → k.shared.Armed t

theorem Launched.next {s s' : Shared N T V} {f : Frame N T V} {ev : Event T V}
    {fs gs : List (Frame N T V)} (hk : Launched ⟨s, f :: fs⟩) (h : Next s f ev s' gs) :
    Launched ⟨s', gs ++ fs⟩ := by
  intro t ht
  have hknown : s.Known t → s'.Armed t := fun hk' => h.armed (hk t (Or.inl hk'))
  have hframe : f.subject = some t → s'.Armed t := fun hf =>
    h.armed (hk t (Or.inr ⟨f, List.mem_cons_self, hf⟩))
  rcases ht with ht | ⟨g, hg, ht⟩
  · exact (h.known ht).elim hknown hframe
  · rcases List.mem_append.mp hg with hg | hg
    · exact (h.subject hg ht).elim hknown fun h => h.elim hframe id
    · exact h.armed (hk t (Or.inr ⟨g, List.mem_cons_of_mem f hg, ht⟩))

omit [DecidableEq T] in
theorem init_launched : Launched (init (N := N) (T := T) (V := V)) := by
  intro t ht
  rcases ht with ht | ⟨f, hf, ht⟩
  · rcases ht with ht | ht | ⟨e, ht⟩
    · exact absurd ht (Nat.lt_irrefl 0)
    · exact absurd rfl ht
    · cases ht
  · rw [List.mem_singleton.mp hf] at ht
    cases ht

theorem launched {k : Kernel N T V} (h : Reachable k) : Launched k := by
  refine h.invariant (I := Launched) ?_ init_launched
  intro k ev k' hl hstep
  obtain ⟨f, fs, s', gs, hk, rfl, hnext⟩ := step_next hstep
  rw [hk] at hl
  exact hl.next hnext

end Kernel

/-! ### Every access can be made -/

section Accesses

variable {s : Shared N T V}

theorem Shared.enqueueLocked_isSome (hN : N ≤ 4096) (s : Shared N T V) (e : Fin N) (t : T) :
    (s.enqueueLocked e t).isSome := by
  have hset := s.bitmap.set_isSome (show e.val < 64 * 64 by omega)
  unfold Shared.enqueueLocked
  rwa [Option.isSome_map]

theorem Shared.wakeLocked_isSome (hN : N ≤ 4096) (s : Shared N T V) (w : T) :
    (s.wakeLocked w).isSome := by
  unfold Shared.wakeLocked
  cases (s.tasks w).executorPtr with
  | none => rfl
  | some e =>
    cases hf : (s.runEnqueue w).2 with
    | true => simpa [hf] using Shared.enqueueLocked_isSome hN (s.runEnqueue w).1 e w
    | false => simp [hf]

theorem callStep_isSome (hN : N ≤ 4096) (hb : BitmapOk s) (c : Call N T) :
    (callStep s c).isSome := by
  cases c with
  | wakePush t e =>
    unfold callStep
    rw [Option.isSome_map]
    exact Shared.enqueueLocked_isSome hN s e t
  | spawnPush e t =>
    unfold callStep
    rw [Option.isSome_map]
    exact Shared.enqueueLocked_isSome hN s e t
  | spawnPend =>
    have hhigh := PriorityBitmap.highest_isSome hb.wf
    unfold callStep Shared.spawnLocked Shared.shouldPend
    rwa [Option.isSome_map, Option.isSome_map, Option.isSome_map]
  | joinTake t w =>
    unfold callStep
    cases hr : (s.tasks t).join.result <;> simp [hr]
  | _ => rfl

/-- The statements of `run` that are not user code. -/
theorem runStep_isSome (hN : N ≤ 4096) {e : Fin N} {r : RunPc N T V}
    (hu : (Frame.run e r).user = none) (harmed : ∀ t, r = .got t → s.Armed t) :
    (runStep s e r).isSome := by
  cases r with
  | top =>
    have hclear := s.bitmap.clear_isSome (show e.val < 64 * 64 by omega)
    unfold runStep Shared.dequeueLocked
    cases hq : s.queue e with
    | nil => simpa [hq] using hclear
    | cons t ts => simp
  | got t =>
    have hfn := harmed t rfl
    unfold Shared.Armed at hfn
    unfold runStep
    cases hp : (s.tasks t).pollFn with
    | none => exact absurd hp hfn
    | some fn => cases fn <;> simp [hp]
  | notify t =>
    unfold runStep Shared.notifyLocked
    rw [Option.isSome_map]
    cases hw : (s.tasks t).join.waker with
    | none => simp [hw]
    | some w => simpa [hw] using Shared.wakeLocked_isSome hN _ w
  | poll t c => cases hu
  | dropInPlace t c => cases hu
  | _ => rfl

end Accesses

namespace Kernel

/-- **No panic.** An activation that is not in user code makes its next
access. -/
theorem tick_isSome (hN : N ≤ 4096) {s : Shared N T V} {f : Frame N T V} {fs : List (Frame N T V)}
    (hb : BitmapOk s) (hn : Nested ⟨s, f :: fs⟩) (hl : Launched ⟨s, f :: fs⟩)
    (hf : f.user ≠ some none) : (tickStep s f).isSome := by
  cases hu : f.user with
  | some c =>
    cases c with
    | none => exact absurd hu hf
    | some c =>
      have hcall := callStep_isSome hN hb c
      unfold tickStep
      rw [hu]
      simpa using hcall
  | none =>
    cases f with
    | base => cases hu
    | isr => cases hu
    | hook => cases hu
    | tryPreempt =>
      have hhigh := PriorityBitmap.highest_isSome hb.wf
      unfold tickStep Shared.tryPreempt
      simpa [Frame.user] using hhigh
    | enable rt =>
      have hmem : rt ∈ s.prioStack := by
        rw [hn.mirror]
        exact List.mem_cons_self
      unfold tickStep
      simp [Frame.user, hn.lt rt hmem]
    | run e r =>
      have harmed : ∀ t, r = .got t → s.Armed t := fun t ht =>
        hl t (Or.inr ⟨_, List.mem_cons_self, by rw [ht]; rfl⟩)
      have hrun := runStep_isSome hN hu harmed
      unfold tickStep
      rw [hu]
      simpa using hrun
    | _ => rfl

end Kernel
end RtAsync

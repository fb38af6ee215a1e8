/-
# Spawning on a storage that is used again

What `Spawner::spawn` is asked for is kept beside the hart: since the last
`Spawner::spawn(prio, t)` that has executed, and until `TaskStorage::poll`
completes `t`, the task was asked for at `prio`. It is on track when its
back-pointer names that executor, everybody who has it linked, owes its push
or polls it is that executor, it stays linked until that executor dequeues it,
and a `wake_task` that found it not queued does not end before it is linked in
that executor's queue again.

`RUN_QUEUED`, `executor_ptr` and the links outlive the incarnation of the
task that left them. `History.TickOk` is what an access must find for the task
to stay on track, and exactly that. Where it finds something else, an earlier
incarnation has left a link, a push, a loaded back-pointer or a dequeued task
behind; nothing of it is there when `TaskStorage::spawn` sets `SPAWNED` only
once nobody has the task in hand (`Kernel.SpawnsFresh`).

Key definitions: `Asked`, `History`, `Kernel.Heads`, `History.Scheduled`,
`History.OnTrack`, `History.TickOk`.
Key theorems: `Next.heads`, `Kernel.OpenWake.next`, `History.Inv.next`,
`History.on_track_iff`, `History.respawn_after_self_wake`.
-/
import RtAsync.Executor.Incarnation

namespace RtAsync

open Function (update update_self update_of_ne)
open Transition (Along Always along_of_along always_iff_along exec)

variable {N : ℕ} {T V : Type}

/-! ### Who has a task in hand -/

/-- The executor that is inside the poll of a task, up to its completion. -/
def Frame.polling : Frame N T V → Option (Fin N × T)
  | run e (.poll t _) => some (e, t)
  | run e (.storeResult t _) => some (e, t)
  | run e (.storeNull t) => some (e, t)
  | _ => none

/-- The task is linked in the queue of `e`, or an activation owes that push, or
`e` polls it. -/
def Kernel.Heads (k : Kernel N T V) (t : T) (e : Fin N) : Prop :=
  t ∈ k.shared.queue e ∨ (∃ f ∈ k.frames, f.push = some (t, e)) ∨
    ∃ f ∈ k.frames, f.polling = some (e, t)

/-- The activation is inside a `wake_task(t)` that has not linked `t` yet, and
acts for `e` if it has read the back-pointer. -/
def Frame.Wakes (f : Frame N T V) (t : T) (e : Fin N) : Prop :=
  f.calling = some (.wake t) ∨ f.calling = some (.wakeFlag t e) ∨ f.calling = some (.wakePush t e)

/-- The task that the next access wakes: an access of `wake_task` up to its
`fetch_or`, or the critical section that wakes the join handle. -/
def Kernel.waking (k : Kernel N T V) (ev : Event T V) : Option T :=
  match ev, k.frames with
  | .call (.wake t), _ => some t
  | .tick, .run _ (.notify u) :: _ => (k.shared.tasks u).join.waker
  | .tick, f :: _ => f.calling.bind Call.waking
  | _, _ => none

/-- The activation at height `d` is inside such a wake. -/
def Kernel.Waking (k : Kernel N T V) (t : T) (e : Fin N) (d : ℕ) : Prop :=
  ∃ hs f fs, k.frames = hs ++ f :: fs ∧ fs.length = d ∧ f.Wakes t e

theorem Frame.serving_of_polling {f : Frame N T V} {t : T} {e : Fin N}
    (h : f.polling = some (e, t)) : f.serving = some (t, e) := by
  unfold polling at h
  split at h
  · obtain ⟨rfl, rfl⟩ := Prod.mk.inj (Option.some.inj h)
    rfl
  · obtain ⟨rfl, rfl⟩ := Prod.mk.inj (Option.some.inj h)
    rfl
  · obtain ⟨rfl, rfl⟩ := Prod.mk.inj (Option.some.inj h)
    rfl
  · cases h

theorem Frame.setCall_polling (f : Frame N T V) (c : Option (Call N T)) :
    (f.setCall c).polling = f.polling := by
  unfold setCall
  split <;> rfl

variable [DecidableEq T]

theorem Next.polling {s s' : Shared N T V} {f g : Frame N T V} {ev : Event T V}
    {gs : List (Frame N T V)} {t : T} {e : Fin N} (h : Next s f ev s' gs) (hg : g ∈ gs)
    (hp : g.polling = some (e, t)) :
    f.polling = some (e, t) ∨
      (ev = .tick ∧ f = .run e (.got t) ∧ (s.tasks t).pollFn = some .poll) := by
  rcases h.mem_frames hg with rfl | rfl | rfl | rfl
  · exact Or.inl hp
  · cases hp
  · cases hp
  cases h with
  | call _ _ =>
    rw [Frame.setCall_polling] at hp
    exact Or.inl hp
  | begin _ _ =>
    rw [Frame.setCall_polling] at hp
    exact Or.inl hp
  | setMie => exact Or.inl hp
  | external => exact Or.inl hp
  | clear sys => cases sys <;> cases hp
  | gotPoll hfn =>
    obtain ⟨rfl, rfl⟩ := Prod.mk.inj (Option.some.inj hp)
    exact Or.inr ⟨rfl, rfl, hfn⟩
  | ready => exact Or.inl hp
  | storeResult => exact Or.inl hp
  | _ => cases hp

/-- A task comes into an executor's hands in one of three ways. -/
theorem Next.heads {s s' : Shared N T V} {f : Frame N T V} {ev : Event T V}
    {fs gs : List (Frame N T V)} {t : T} {e : Fin N} (h : Next s f ev s' gs)
    (ht : Kernel.Heads ⟨s', gs ++ fs⟩ t e) :
    Kernel.Heads ⟨s, f :: fs⟩ t e ∨
    (ev = .tick ∧ s.flag t = false ∧
      (f.calling = some (.wakeFlag t e) ∨ f.calling = some (.spawnFlag e t))) ∨
    ((∃ q u, f = .run q (.notify u)) ∧ s.ptr t = some e) ∨
    (ev = .tick ∧ f = .run e (.got t) ∧ (s.tasks t).pollFn = some .poll) := by
  rcases ht with ht | ⟨g, hg, hp⟩ | ⟨g, hg, hp⟩
  · rcases h.linked ht with ht | hf | hw
    · exact Or.inl (Or.inl ht)
    · exact Or.inl (Or.inr (Or.inl ⟨f, List.mem_cons_self, hf⟩))
    · exact Or.inr (Or.inr (Or.inl hw))
  · rcases List.mem_append.mp hg with hg | hg
    · rcases h.push hg hp with hf | hflag
      · exact Or.inl (Or.inr (Or.inl ⟨f, List.mem_cons_self, hf⟩))
      · exact Or.inr (Or.inl hflag)
    · exact Or.inl (Or.inr (Or.inl ⟨g, List.mem_cons_of_mem _ hg, hp⟩))
  · rcases List.mem_append.mp hg with hg | hg
    · rcases h.polling hg hp with hf | hgot
      · exact Or.inl (Or.inr (Or.inr ⟨f, List.mem_cons_self, hf⟩))
      · exact Or.inr (Or.inr (Or.inr hgot))
    · exact Or.inl (Or.inr (Or.inr ⟨g, List.mem_cons_of_mem _ hg, hp⟩))

/-! ### What was asked for -/

/-- The last `Spawner::spawn` of an incarnation: its priority, whether the task
has waited in that executor's queue ever since, and the height on the stack of
the activation whose wake found the task not queued, until it is linked in that
queue again. -/
structure Asked (N : ℕ) where
  prio : Fin N
  waiting : Bool
  waking : Option ℕ
  deriving DecidableEq

def Asked.dequeuedBy (a : Asked N) (e : Fin N) : Asked N :=
  { a with waiting := a.waiting && !decide (a.prio = e) }

/-- What a step from `k` to `k'` does to the wakes of `t`: it links `t` in the
queue that it was asked for, or it is an access of a wake that finds the flag
clear. -/
def Asked.wokenBy (a : Asked N) (k k' : Kernel N T V) (ev : Event T V) (t : T) : Asked N :=
  if t ∉ k.shared.queue a.prio ∧ t ∈ k'.shared.queue a.prio then { a with waking := none }
  else if k.waking ev = some t ∧ k.shared.flag t = false then
    { a with waking := some k.frames.tail.length }
  else a

/-- `Spawner::spawn` has executed at its push, or at its `fetch_or` if that
finds the flag set; the completion ends the incarnation. -/
def Shared.askedTick (s : Shared N T V) (f : Frame N T V) (asked : T → Option (Asked N)) :
    T → Option (Asked N) :=
  match f.calling with
  | some (.spawnFlag e t) => if s.flag t then update asked t (some ⟨e, true, none⟩) else asked
  | some (.spawnPush e t) => update asked t (some ⟨e, true, none⟩)
  | _ => match f with
    | .run e .top => match s.queue e with
      | t :: _ => update asked t ((asked t).map (·.dequeuedBy e))
      | [] => asked
    | .run _ (.storeNull t) => update asked t none
    | _ => asked

def Kernel.askedNext (k : Kernel N T V) (ev : Event T V) (asked : T → Option (Asked N)) :
    T → Option (Asked N) :=
  match ev with
  | .tick => match k.frames with
    | f :: _ => k.shared.askedTick f asked
    | [] => asked
  | _ => asked

/-- The hart, and what was asked for. -/
structure History (N : ℕ) (T V : Type) where
  kernel : Kernel N T V
  asked : T → Option (Asked N)

namespace History

def init : History N T V := ⟨.init, fun _ => none⟩

/-- What was asked for after a step, the wakes included. -/
def next (k k' : Kernel N T V) (ev : Event T V) (asked : T → Option (Asked N)) :
    T → Option (Asked N) :=
  fun t => (k.askedNext ev asked t).map (·.wokenBy k k' ev t)

def step (h : History N T V) (ev : Event T V) : Option (History N T V) :=
  (h.kernel.step ev).map fun k' => ⟨k', next h.kernel k' ev h.asked⟩

/-- The task is where it was asked for, and a wake that found it not queued
goes on until it has linked the task there. -/
structure Scheduled (h : History N T V) (t : T) (a : Asked N) : Prop where
  ptr : h.kernel.shared.ptr t = some a.prio
  heads : ∀ e, h.kernel.Heads t e → e = a.prio
  waiting : a.waiting = true →
    t ∈ h.kernel.shared.queue a.prio ∧ h.kernel.shared.bitmap.Mem a.prio
  waking : ∀ d, a.waking = some d → h.kernel.Waking t a.prio d

def OnTrack (h : History N T V) : Prop := ∀ t a, h.asked t = some a → Scheduled h t a

/-- Nobody but `e` is inside the poll of `t`. -/
def PolledOnlyBy (h : History N T V) (t : T) (e : Fin N) : Prop :=
  ∀ g ∈ h.kernel.frames, ∀ q, g.polling = some (q, t) → q = e

/-- What the next access of the innermost activation must find. -/
structure TickOk (h : History N T V) (f : Frame N T V) : Prop where
  /-- Who sets the flag of an incarnation pushes it where it was asked for. -/
  flag : ∀ t e a, f.calling = some (.wakeFlag t e) ∨ f.calling = some (.spawnFlag e t) →
    h.kernel.shared.flag t = false → h.asked t = some a → e = a.prio
  /-- `Spawner::spawn` finds the flag set only of a task that is where it is
  asked for. -/
  skip : ∀ t e, f.calling = some (.spawnFlag e t) → h.kernel.shared.flag t = true →
    t ∈ h.kernel.shared.queue e ∧ h.kernel.shared.ptr t = some e ∧ PolledOnlyBy h t e
  push : ∀ t e, f.calling = some (.spawnPush e t) → PolledOnlyBy h t e
  /-- A task that was dequeued is polled by the executor it was asked for at. -/
  poll : ∀ t e a, f = .run e (.got t) → (h.kernel.shared.tasks t).pollFn = some .poll →
    h.asked t = some a → e = a.prio

def StepOk (h : History N T V) (ev : Event T V) : Prop :=
  ev = .tick → ∀ f fs, h.kernel.frames = f :: fs → TickOk h f

end History

theorem Shared.askedTick_cases (s : Shared N T V) (f : Frame N T V) (asked : T → Option (Asked N)) :
    (∃ e t, (f.calling = some (.spawnPush e t) ∨ f.calling = some (.spawnFlag e t) ∧ s.flag t = true) ∧
      s.askedTick f asked = update asked t (some ⟨e, true, none⟩)) ∨
    (∃ e t ts, f = .run e .top ∧ s.queue e = t :: ts ∧
      s.askedTick f asked = update asked t ((asked t).map (·.dequeuedBy e))) ∨
    (∃ e t, f = .run e (.storeNull t) ∧ s.askedTick f asked = update asked t none) ∨
    ((∀ e t, f ≠ .run e (.storeNull t)) ∧ (∀ e t ts, f = .run e .top → s.queue e ≠ t :: ts) ∧
      s.askedTick f asked = asked) := by
  generalize hg : s.askedTick f asked = g
  unfold askedTick at hg
  have hother : (∀ e r, f ≠ .run e r) → asked = g →
      (∀ e t, f ≠ .run e (.storeNull t)) ∧ (∀ e t ts, f = .run e .top → s.queue e ≠ t :: ts) ∧
        g = asked := fun hf hg =>
    ⟨fun e t => hf e _, fun e t ts h => absurd h (hf e _), hg.symm⟩
  split at hg
  · rename_i e t hcall
    split at hg
    · rename_i hflag
      exact Or.inl ⟨e, t, Or.inr ⟨hcall, hflag⟩, hg.symm⟩
    · refine Or.inr (Or.inr (Or.inr ⟨fun q u hf => ?_, fun q u us hf => ?_, hg.symm⟩))
      · rw [hf] at hcall
        cases hcall
      · rw [hf] at hcall
        cases hcall
  · rename_i e t hcall
    exact Or.inl ⟨e, t, Or.inl hcall, hg.symm⟩
  · split at hg
    · rename_i e _ _
      split at hg
      · rename_i t ts hq
        exact Or.inr (Or.inl ⟨e, t, ts, rfl, hq, hg.symm⟩)
      · rename_i hq
        refine Or.inr (Or.inr (Or.inr ⟨fun q u hf => (by cases hf), fun q u us hf hqu => ?_, hg.symm⟩))
        cases hf
        rw [hq] at hqu
        cases hqu
    · rename_i e t _ _
      exact Or.inr (Or.inr (Or.inl ⟨e, t, rfl, hg.symm⟩))
    · rename_i htop hnull
      exact Or.inr (Or.inr (Or.inr
        ⟨hnull, fun e t ts hf => absurd hf (htop e), hg.symm⟩))

theorem Shared.askedTick_push (s : Shared N T V) {f : Frame N T V} {asked : T → Option (Asked N)}
    {e : Fin N} {t : T} (h : f.calling = some (.spawnPush e t)) :
    s.askedTick f asked = update asked t (some ⟨e, true, none⟩) := by
  simp only [askedTick, h]

theorem Shared.askedTick_skip (s : Shared N T V) {f : Frame N T V} {asked : T → Option (Asked N)}
    {e : Fin N} {t : T} (h : f.calling = some (.spawnFlag e t)) (hflag : s.flag t = true) :
    s.askedTick f asked = update asked t (some ⟨e, true, none⟩) := by
  simp only [askedTick, h, hflag, ↓reduceIte]

/-- A `fetch_or` that finds the flag clear asks for nothing yet. -/
theorem Shared.askedTick_clear (s : Shared N T V) {f : Frame N T V} {asked : T → Option (Asked N)}
    {e : Fin N} {t : T}
    (h : f.calling = some (.wakeFlag t e) ∨ f.calling = some (.spawnFlag e t))
    (hclear : s.flag t = false) : s.askedTick f asked = asked := by
  rcases s.askedTick_cases f asked with ⟨q, u, hcall, -⟩ | ⟨q, u, us, rfl, -, -⟩ |
    ⟨q, u, rfl, -⟩ | ⟨-, -, hg⟩
  · rcases h with h | h
    · rw [h] at hcall
      rcases hcall with hcall | ⟨hcall, -⟩ <;> cases hcall
    · rw [h] at hcall
      rcases hcall with hcall | ⟨hcall, hflag⟩
      · cases hcall
      · cases hcall
        rw [hclear] at hflag
        cases hflag
  · rcases h with h | h <;> cases h
  · rcases h with h | h <;> cases h
  · exact hg

/-- What was asked for after a step: what was asked for before it, less the
waiting if the executor dequeues the task; or what a `Spawner::spawn` that
executes asks for. -/
theorem Kernel.askedNext_some {s : Shared N T V} {f : Frame N T V} {fs : List (Frame N T V)}
    {ev : Event T V} {asked : T → Option (Asked N)} {t : T} {a : Asked N}
    (h : Kernel.askedNext ⟨s, f :: fs⟩ ev asked t = some a) :
    (∃ b, asked t = some b ∧ a.prio = b.prio ∧ a.waking = b.waking ∧
      (∀ q, ev = .tick → f ≠ .run q (.storeNull t)) ∧
      (a.waiting = true → b.waiting = true ∧
        ¬ (ev = .tick ∧ f = .run b.prio .top ∧ ∃ ts, s.queue b.prio = t :: ts))) ∨
    (ev = .tick ∧ ∃ e, a = ⟨e, true, none⟩ ∧
      (f.calling = some (.spawnPush e t) ∨
        f.calling = some (.spawnFlag e t) ∧ s.flag t = true)) := by
  cases ev with
  | tick =>
    have h : s.askedTick f asked t = some a := h
    rcases s.askedTick_cases f asked with ⟨e, u, hcall, hg⟩ | ⟨e, u, us, hf, hq, hg⟩ |
      ⟨e, u, hf, hg⟩ | ⟨hnull, hdeq, hg⟩
    · rw [hg] at h
      by_cases htu : t = u
      · subst htu
        rw [update_self] at h
        exact Or.inr ⟨rfl, e, (Option.some.inj h).symm, hcall⟩
      · rw [update_of_ne htu] at h
        refine Or.inl ⟨a, h, rfl, rfl, fun q _ hf => ?_, fun hw => ⟨hw, fun ⟨_, hf, _⟩ => ?_⟩⟩
        · rw [hf] at hcall
          rcases hcall with hcall | ⟨hcall, -⟩ <;> cases hcall
        · rw [hf] at hcall
          rcases hcall with hcall | ⟨hcall, -⟩ <;> cases hcall
    · rw [hg] at h
      have hnull : ∀ q, f ≠ .run q (.storeNull t) := fun q hn => by
        rw [hf] at hn
        cases hn
      by_cases htu : t = u
      · subst htu
        rw [update_self] at h
        obtain ⟨b, hb, rfl⟩ := Option.map_eq_some_iff.mp h
        refine Or.inl ⟨b, hb, rfl, rfl, fun q _ => hnull q, fun hw => ?_⟩
        have hw : (b.waiting && !decide (b.prio = e)) = true := hw
        rw [Bool.and_eq_true, Bool.not_eq_true', decide_eq_false_iff_not] at hw
        refine ⟨hw.1, fun ⟨_, hf', _⟩ => hw.2 ?_⟩
        rw [hf] at hf'
        cases hf'
        rfl
      · rw [update_of_ne htu] at h
        refine Or.inl ⟨a, h, rfl, rfl, fun q _ => hnull q, fun hw => ⟨hw, fun ⟨_, hf', ts, hqt⟩ => htu ?_⟩⟩
        rw [hf] at hf'
        cases hf'
        exact (List.cons.inj (hqt.symm.trans hq)).1
    · rw [hg] at h
      by_cases htu : t = u
      · subst htu
        rw [update_self] at h
        cases h
      · rw [update_of_ne htu] at h
        refine Or.inl ⟨a, h, rfl, rfl, fun q _ hn => htu ?_, fun hw => ⟨hw, fun ⟨_, hf', _⟩ => ?_⟩⟩
        · rw [hf] at hn
          cases hn
          rfl
        · rw [hf] at hf'
          cases hf'
    · rw [hg] at h
      exact Or.inl ⟨a, h, rfl, rfl, fun q _ => hnull q t,
        fun hw => ⟨hw, fun ⟨_, hf, ts, hq⟩ => hdeq _ _ ts hf hq⟩⟩
  | _ => exact Or.inl ⟨a, h, rfl, rfl, fun _ hev => (by cases hev),
      fun hw => ⟨hw, fun ⟨hev, _⟩ => by cases hev⟩⟩

/-! ### The wakes -/

section Wakes

variable {k k' : Kernel N T V} {ev : Event T V} {t : T}

@[simp] theorem Asked.wokenBy_prio (a : Asked N) : (a.wokenBy k k' ev t).prio = a.prio := by
  unfold wokenBy
  split_ifs <;> rfl

@[simp] theorem Asked.wokenBy_waiting (a : Asked N) :
    (a.wokenBy k k' ev t).waiting = a.waiting := by
  unfold wokenBy
  split_ifs <;> rfl

theorem Asked.wokenBy_waking {a : Asked N} {d : ℕ} (h : (a.wokenBy k k' ev t).waking = some d) :
    (t ∈ k'.shared.queue a.prio → t ∈ k.shared.queue a.prio) ∧
      (a.waking = some d ∨
        (k.waking ev = some t ∧ k.shared.flag t = false ∧ d = k.frames.tail.length)) := by
  unfold wokenBy at h
  split_ifs at h with hlinked hwake
  · have hkeep : t ∈ k'.shared.queue a.prio → t ∈ k.shared.queue a.prio := fun hin =>
      Decidable.of_not_not fun hno => hlinked ⟨hno, hin⟩
    exact ⟨hkeep, Or.inr ⟨hwake.1, hwake.2, (Option.some.inj h).symm⟩⟩
  · exact ⟨fun hin => Decidable.of_not_not fun hno => hlinked ⟨hno, hin⟩, Or.inl h⟩

/-- Since it found the task not queued, nobody has linked it, and no activation
below the wake owes its push. -/
def Kernel.OpenWake (k : Kernel N T V) (t : T) (e : Fin N) (d : ℕ) : Prop :=
  ∃ hs f fs, k.frames = hs ++ f :: fs ∧ fs.length = d ∧ f.Wakes t e ∧ t ∉ k.shared.queue e ∧
    ∀ g ∈ fs, ∀ q, g.push ≠ some (t, q)

omit [DecidableEq T] in
theorem Kernel.OpenWake.not_linked {e : Fin N} {d : ℕ} (h : k.OpenWake t e d) :
    t ∉ k.shared.queue e := by
  obtain ⟨_, _, _, -, -, -, hno, -⟩ := h
  exact hno

omit [DecidableEq T] in
theorem Kernel.OpenWake.waking {e : Fin N} {d : ℕ} (h : k.OpenWake t e d) : k.Waking t e d := by
  obtain ⟨hs, f, fs, hframes, hd, hf, -⟩ := h
  exact ⟨hs, f, fs, hframes, hd, hf⟩

end Wakes

section Wakes

variable {s s' : Shared N T V} {f : Frame N T V} {ev : Event T V} {fs gs : List (Frame N T V)}
  {t : T} {e : Fin N} {d : ℕ}

theorem Kernel.Balanced.no_push (hb : Kernel.Balanced ⟨s, f :: fs⟩) (hclear : s.flag t = false) :
    ∀ g ∈ fs, ∀ q, g.push ≠ some (t, q) := by
  intro g hg q hp
  have hbt : s.links t + owed (f :: fs) t = (s.flag t).toNat := hb t
  have hpos : 0 < owed (f :: fs) t := owed_pos (List.mem_cons_of_mem f hg) hp
  rw [hclear, Bool.toNat_false] at hbt
  omega

/-- The access of an open wake: it finds the flag clear, and it ends by linking
the task. -/
theorem Next.wakes (h : Next s f .tick s' gs) (hf : f.Wakes t e) (hptr : s.ptr t = some e)
    (hclear : f.calling = some (.wakeFlag t e) → s.flag t = false) :
    t ∈ s'.queue e ∨ ∃ f', gs = [f'] ∧ f'.Wakes t e := by
  have hgo : ∀ {c : Call N T}, f.calling = some c → ∃ c', CallNext s c s' c' ∧ gs = [f.setCall c'] ∧
      (f.setCall c').calling = c' := fun hcall => by
    obtain ⟨c', hc', hgs⟩ := h.calling hcall
    exact ⟨c', callStep_next hc', hgs, Frame.setCall_calling (Frame.user_of_calling hcall) c'⟩
  rcases hf with hcall | hcall | hcall
  · obtain ⟨c', hc', hgs, hset⟩ := hgo hcall
    cases hc' with
    | wakeNull hnull =>
      rw [show (s.tasks t).executorPtr = some e from hptr] at hnull
      cases hnull
    | wake hsome =>
      obtain rfl := Option.some.inj (hptr.symm.trans hsome)
      exact Or.inr ⟨_, hgs, Or.inr (Or.inl hset)⟩
  · obtain ⟨c', hc', hgs, hset⟩ := hgo hcall
    cases hc' with
    | wakeSkip _ hq =>
      rw [show (s.tasks t).state.runQueued = false from hclear hcall] at hq
      cases hq
    | wakeFlag => exact Or.inr ⟨_, hgs, Or.inr (Or.inr hset)⟩
  · obtain ⟨c', hc', -, -⟩ := hgo hcall
    cases hc' with
    | wakePush =>
      refine Or.inl ?_
      show t ∈ update s.queue e (s.queue e ++ [t]) e
      rw [update_self]
      exact List.mem_append_right _ (List.mem_singleton_self t)

theorem Shared.notifyLocked_links {u : T} (h : s.notifyLocked u = some s')
    (hwaker : (s.tasks u).join.waker = some t) (hclear : s.flag t = false)
    (hptr : s.ptr t = some e) : t ∈ s'.queue e := by
  rcases Shared.notifyLocked_some h with ⟨hnone, -⟩ | ⟨w, hw, hwake⟩
  · rw [hnone] at hwaker
    cases hwaker
  obtain rfl : w = t := Option.some.inj (hw.symm.trans hwaker)
  have hclear : (s.despawned u).flag w = false := by rw [despawned_flag, hclear]
  have hptr : (s.despawned u).ptr w = some e := by rw [despawned_ptr, hptr]
  rcases Shared.wakeLocked_some hwake with ⟨hnull, -⟩ | ⟨e', he', ⟨hq, -⟩ | ⟨-, bm, -, rfl⟩⟩
  · rw [show ((s.despawned u).tasks w).executorPtr = some e from hptr] at hnull
    cases hnull
  · rw [show ((s.despawned u).tasks w).state.runQueued = false from hclear] at hq
    cases hq
  · obtain rfl : e' = e := Option.some.inj (he'.symm.trans hptr)
    show w ∈ update s.queue e' (s.queue e' ++ [w]) e'
    rw [update_self]
    exact List.mem_append_right _ (List.mem_singleton_self w)

/-- A wake that found the task not queued goes on, or the task has been linked. -/
theorem Kernel.OpenWake.next (hk : OpenWake ⟨s, f :: fs⟩ t e d) (hb : Balanced ⟨s, f :: fs⟩)
    (hptr : s.ptr t = some e) (hheads : ∀ q, Heads ⟨s, f :: fs⟩ t q → q = e)
    (h : Next s f ev s' gs) : t ∈ s'.queue e ∨ OpenWake ⟨s', gs ++ fs⟩ t e d := by
  refine (em (t ∈ s'.queue e)).imp_right fun hno => ?_
  obtain ⟨hs, g, fs', hframes, hd, hg, hlink, hbelow⟩ := hk
  have hframes : f :: fs = hs ++ g :: fs' := hframes
  cases hs with
  | cons f' hs =>
    obtain ⟨rfl, rfl⟩ := List.cons.inj hframes
    exact ⟨gs ++ hs, g, fs', (List.append_assoc _ _ _).symm, hd, hg, hno, hbelow⟩
  | nil =>
    obtain ⟨rfl, rfl⟩ := List.cons.inj hframes
    have hcalling : ∃ c, f.calling = some c := by
      rcases hg with hg | hg | hg <;> exact ⟨_, hg⟩
    obtain ⟨c, hc⟩ := hcalling
    rcases h.of_calling (Frame.user_of_calling hc) with ⟨rfl, -⟩ | ⟨as, rfl⟩
    · have hclear : f.calling = some (.wakeFlag t e) → s.flag t = false := fun hcall => by
        have hnone : f.push = none := by
          rw [Frame.push, hcall]
          rfl
        by_contra hflag
        rcases (hb.linked_or_owed t).mp (Bool.eq_true_of_not_eq_false hflag) with
          ⟨⟨q, hq⟩, -⟩ | ⟨-, howed⟩
        · obtain rfl := hheads q (Or.inl hq)
          exact hlink hq
        · have howed : owed (f :: fs) t = 1 := howed
          rw [owed_cons, owed_none hnone, Nat.zero_add] at howed
          obtain ⟨g, hg, q, hp⟩ := exists_push_of_owed (howed ▸ Nat.one_pos)
          exact hbelow g hg q hp
      rcases h.wakes hg hptr hclear with hin | ⟨f', rfl, hf'⟩
      · exact absurd hin hno
      · exact ⟨[], f', fs, rfl, hd, hf', hno, hbelow⟩
    · exact ⟨as, f, fs, by simp, hd, hg, hno, hbelow⟩

theorem Next.openWake (h : Next s f ev s' gs) (hb : Kernel.Balanced ⟨s, f :: fs⟩)
    (hwake : Kernel.waking ⟨s, f :: fs⟩ ev = some t) (hclear : s.flag t = false)
    (hptr : s.ptr t = some e)
    (hflag : ev = .tick → ∀ q, f.calling = some (.wakeFlag t q) → q = e) :
    t ∈ s'.queue e ∨ Kernel.OpenWake ⟨s', gs ++ fs⟩ t e fs.length := by
  refine (em (t ∈ s'.queue e)).imp_right fun hno => ?_
  have hbelow := hb.no_push hclear
  have hopen : ∀ f', gs = [f'] → f'.Wakes t e → Kernel.OpenWake ⟨s', gs ++ fs⟩ t e fs.length :=
    fun f' hgs hf' => ⟨[], f', fs, by rw [hgs]; rfl, rfl, hf', hno, hbelow⟩
  have htick : ev = .tick → f.Wakes t e → Kernel.OpenWake ⟨s', gs ++ fs⟩ t e fs.length := by
    rintro rfl hf
    rcases h.wakes hf hptr fun _ => hclear with hin | ⟨f', hgs, hf'⟩
    · exact absurd hin hno
    · exact hopen f' hgs hf'
  unfold Kernel.waking at hwake
  split at hwake
  · obtain rfl := Option.some.inj hwake
    cases h with
    | begin hu hc =>
      cases callStart_next hc
      exact hopen _ rfl (Or.inl (Frame.setCall_calling hu _))
  · -- the critical section that wakes the join handle links the task
    rename_i hframes
    obtain ⟨rfl, rfl⟩ := List.cons.inj hframes
    rcases h.of_notify with ⟨hev, -⟩ | ⟨-, -, hn⟩
    · exact absurd rfl hev
    · exact absurd (Shared.notifyLocked_links hn hwake hclear hptr) hno
  · rename_i g gs' _ hframes
    obtain ⟨rfl, rfl⟩ := List.cons.inj hframes
    obtain ⟨c, hc, hw⟩ := Option.bind_eq_some_iff.mp hwake
    cases c with
    | wake u =>
      obtain rfl := Option.some.inj hw
      exact htick rfl (Or.inl hc)
    | wakeFlag u q =>
      obtain rfl := Option.some.inj hw
      obtain rfl := hflag rfl q hc
      exact htick rfl (Or.inr (Or.inl hc))
    | _ => cases hw
  · cases hwake

end Wakes

namespace History

section Step

variable {s s' : Shared N T V} {f : Frame N T V} {ev : Event T V} {fs gs : List (Frame N T V)}
  {asked asked' : T → Option (Asked N)} {t : T}

theorem Scheduled.next {a b : Asked N} (hold : Scheduled ⟨⟨s, f :: fs⟩, asked⟩ t b)
    (hasked : asked t = some b) (hc : Kernel.Coherent ⟨s', gs ++ fs⟩)
    (hok : StepOk ⟨⟨s, f :: fs⟩, asked⟩ ev) (h : Next s f ev s' gs) (hprio : a.prio = b.prio)
    (hnull : ∀ q, ev = .tick → f ≠ .run q (.storeNull t))
    (hwait : a.waiting = true → b.waiting = true ∧
      ¬(ev = .tick ∧ f = .run b.prio .top ∧ ∃ ts, s.queue b.prio = t :: ts))
    (hwaking : ∀ d, a.waking = some d → Kernel.Waking ⟨s', gs ++ fs⟩ t a.prio d) :
    Scheduled ⟨⟨s', gs ++ fs⟩, asked'⟩ t a := by
  have hheads : ∀ e, Kernel.Heads ⟨s', gs ++ fs⟩ t e → e = b.prio := fun e he => by
    rcases h.heads he with he | ⟨hev, hclear, hcall⟩ | ⟨-, hptr⟩ | ⟨hev, hf, hfn⟩
    · exact hold.heads e he
    · exact (hok hev f fs rfl).flag t e b hcall hclear hasked
    · exact (Option.some.inj (hold.ptr.symm.trans hptr)).symm
    · exact (hok hev f fs rfl).poll t e b hf hfn hasked
  refine ⟨?_, by rw [hprio]; exact hheads, fun hw => ?_, hwaking⟩
  · rw [hprio]
    rcases h.ptr t with hp | ⟨e, hf, hp⟩ | ⟨hev, -, q, hf⟩
    · exact hp.trans hold.ptr
    · have he : e = b.prio := hold.heads e (Or.inr (Or.inl ⟨f, List.mem_cons_self, hf⟩))
      exact he ▸ hp
    · exact absurd hf (hnull q hev)
  · obtain ⟨hbw, hno⟩ := hwait hw
    rw [hprio]
    have ht : t ∈ s'.queue b.prio := (h.stays_linked (hold.waiting hbw).1).resolve_right hno
    exact ⟨ht, hc.set b.prio (List.ne_nil_of_mem ht)⟩

/-- An access of `Spawner::spawn` after which the task is linked at `e`, if
whoever had it in hand before was `e`. -/
theorem scheduled_of_calling {c : Call N T} {e : Fin N} (hcall : f.calling = some c)
    (h : Next s f ev s' gs) (hc : Kernel.Coherent ⟨s', gs ++ fs⟩)
    (hheads : ∀ q, Kernel.Heads ⟨s, f :: fs⟩ t q → q = e)
    (hflag : ∀ q, s.flag t = false → c ≠ .wakeFlag t q ∧ c ≠ .spawnFlag q t)
    (hptr : s'.ptr t = some e) (ht : t ∈ s'.queue e) {a : Asked N} (ha : a.prio = e)
    (hnew : a.waking = none) : Scheduled ⟨⟨s', gs ++ fs⟩, asked'⟩ t a := by
  subst ha
  refine ⟨hptr, fun q hq => ?_, fun _ => ⟨ht, hc.set a.prio (List.ne_nil_of_mem ht)⟩,
    fun d hd => by rw [hnew] at hd; cases hd⟩
  rcases h.heads hq with hq | ⟨-, hclear, hfetch⟩ | ⟨⟨q', u, hf⟩, -⟩ | ⟨-, hf, -⟩
  · exact hheads q hq
  · obtain ⟨h1, h2⟩ := hflag q hclear
    rw [hcall] at hfetch
    rcases hfetch with hfetch | hfetch
    · exact absurd (Option.some.inj hfetch) h1
    · exact absurd (Option.some.inj hfetch) h2
  · rw [hf] at hcall
    cases hcall
  · rw [hf] at hcall
    cases hcall

/-- The push of `Spawner::spawn`: it was the only one owed, and the task was
not linked. -/
theorem scheduled_of_push {e : Fin N} (hb : Kernel.Balanced ⟨s, f :: fs⟩)
    (hc : Kernel.Coherent ⟨s', gs ++ fs⟩) (htick : TickOk ⟨⟨s, f :: fs⟩, asked⟩ f)
    (h : Next s f .tick s' gs) (hcall : f.calling = some (.spawnPush e t)) {a : Asked N}
    (ha : a.prio = e) (hnew : a.waking = none) : Scheduled ⟨⟨s', gs ++ fs⟩, asked'⟩ t a := by
  have hpush : f.push = some (t, e) := by
    rw [Frame.push, hcall]
    rfl
  have howed : owed (f :: fs) t = 1 + owed fs t := by
    rw [owed_cons, owed_some hpush, if_pos rfl]
  have hbt : s.links t + owed (f :: fs) t = (s.flag t).toNat := hb t
  have hle := Bool.toNat_le (s.flag t)
  have hpos : 0 < owed (f :: fs) t := by omega
  have hnolink : ¬ Kernel.Linked ⟨s, f :: fs⟩ t := hb.not_linked (Or.inr hpos)
  have hnoowed : owed fs t = 0 := by omega
  obtain ⟨c', hc', -⟩ := h.calling hcall
  cases callStep_next hc'
  refine scheduled_of_calling hcall h hc (fun q hq => ?_) (fun q _ => by simp) ?_ ?_ ha hnew
  · rcases hq with hq | ⟨g, hg, hp⟩ | ⟨g, hg, hp⟩
    · exact absurd ⟨q, hq⟩ hnolink
    · rcases List.mem_cons.mp hg with rfl | hg
      · exact (Prod.mk.inj (Option.some.inj (hp.symm.trans hpush))).2
      · have hone : 0 < owed fs t := owed_pos hg hp
        omega
    · exact htick.push t e hcall g hg q hp
  · rw [Shared.pushed_ptr, update_self]
  · show t ∈ update s.queue e (s.queue e ++ [t]) e
    rw [update_self]
    exact List.mem_append_right _ (List.mem_singleton_self t)

/-- The push of `Spawner::spawn` is skipped: the task is linked where it is
asked for. -/
theorem scheduled_of_skip {e : Fin N} (hb : Kernel.Balanced ⟨s, f :: fs⟩)
    (hc : Kernel.Coherent ⟨s', gs ++ fs⟩) (htick : TickOk ⟨⟨s, f :: fs⟩, asked⟩ f)
    (h : Next s f .tick s' gs) (hcall : f.calling = some (.spawnFlag e t))
    (hflag : s.flag t = true) {a : Asked N} (ha : a.prio = e) (hnew : a.waking = none) :
    Scheduled ⟨⟨s', gs ++ fs⟩, asked'⟩ t a := by
  obtain ⟨hlinked, hptr, hpoll⟩ := htick.skip t e hcall hflag
  have hnopush : f.push = none := by
    rw [Frame.push, hcall]
    rfl
  have hno : ∀ g ∈ f :: fs, ∀ q, g.push ≠ some (t, q) := fun g hg q hp =>
    hb.not_linked (Or.inr (owed_pos hg hp)) ⟨e, hlinked⟩
  refine scheduled_of_calling hcall h hc (fun q hq => ?_) (fun q hclear => ?_) ?_ ?_ ha hnew
  · rcases hq with hq | ⟨g, hg, hp⟩ | ⟨g, hg, hp⟩
    · exact hb.queue_unique hq hlinked
    · exact absurd hp (hno g hg q)
    · exact hpoll g hg q hp
  · rw [hflag] at hclear
    cases hclear
  · rcases h.ptr t with hp | ⟨q, hq, -⟩ | ⟨-, -, q, hf⟩
    · exact hp.trans hptr
    · rw [hnopush] at hq
      cases hq
    · rw [hf] at hcall
      cases hcall
  · refine (h.stays_linked hlinked).resolve_right fun hfetch => ?_
    obtain ⟨_, hf, -⟩ := hfetch
    rw [hf] at hcall
    cases hcall

end Step

/-- Everything is on track, and why the wakes will end as they should. -/
structure Inv (h : History N T V) : Prop where
  reach : Kernel.Reachable h.kernel
  onTrack : OnTrack h
  wakes : ∀ t a d, h.asked t = some a → a.waking = some d → h.kernel.OpenWake t a.prio d

section Step

variable {s s' : Shared N T V} {f : Frame N T V} {ev : Event T V} {fs gs : List (Frame N T V)}
  {asked : T → Option (Asked N)} {t : T}

theorem new_waking {k' : Kernel N T V} {e : Fin N}
    (hcall : f.calling = some (.spawnPush e t) ∨ f.calling = some (.spawnFlag e t)) :
    (Asked.wokenBy ⟨e, true, none⟩ ⟨s, f :: fs⟩ k' .tick t).waking = none := by
  refine Option.eq_none_iff_forall_ne_some.mpr fun d hd => ?_
  rcases (Asked.wokenBy_waking hd).2 with hd | ⟨hwake, -⟩
  · cases hd
  · unfold Kernel.waking at hwake
    split at hwake
    · rename_i hev
      cases hev
    · rename_i hframes
      obtain ⟨rfl, -⟩ := List.cons.inj hframes
      rcases hcall with hcall | hcall <;> cases hcall
    · rename_i hframes
      obtain ⟨rfl, -⟩ := List.cons.inj hframes
      rcases hcall with hcall | hcall <;> (rw [hcall] at hwake; cases hwake)
    · cases hwake

theorem Inv.wakes_next (hI : Inv ⟨⟨s, f :: fs⟩, asked⟩) (hok : StepOk ⟨⟨s, f :: fs⟩, asked⟩ ev)
    (h : Next s f ev s' gs) {a : Asked N} {d : ℕ}
    (ha : next ⟨s, f :: fs⟩ ⟨s', gs ++ fs⟩ ev asked t = some a) (hd : a.waking = some d) :
    Kernel.OpenWake ⟨s', gs ++ fs⟩ t a.prio d := by
  have hb : Kernel.Balanced ⟨s, f :: fs⟩ := Kernel.balanced hI.reach
  obtain ⟨a, hasks, rfl⟩ := Option.map_eq_some_iff.mp ha
  obtain ⟨hkeep, hfrom⟩ := Asked.wokenBy_waking hd
  rw [Asked.wokenBy_prio]
  rcases Kernel.askedNext_some hasks with ⟨b, hasked, hprio, hwaking, -⟩ | ⟨rfl, e, rfl, hcall⟩
  · have hold : Scheduled ⟨⟨s, f :: fs⟩, asked⟩ t b := hI.onTrack t b hasked
    rw [hprio] at hkeep ⊢
    rcases hfrom with hsome | ⟨hwake, hclear, rfl⟩
    · have hopen : Kernel.OpenWake ⟨s, f :: fs⟩ t b.prio d :=
        hI.wakes t b d hasked (hwaking ▸ hsome)
      exact (hopen.next hb hold.ptr hold.heads h).resolve_left fun hin =>
        hopen.not_linked (hkeep hin)
    · have hflag : ev = .tick → ∀ q, f.calling = some (.wakeFlag t q) → q = b.prio :=
        fun hev q hcall => (hok hev f fs rfl).flag t q b (Or.inl hcall) hclear hasked
      exact (h.openWake hb hwake hclear hold.ptr hflag).resolve_left fun hin =>
        hb.not_linked (Or.inl hclear) ⟨_, hkeep hin⟩
  · rw [new_waking (hcall.imp_right And.left)] at hd
    cases hd

theorem Inv.onTrack_next (hI : Inv ⟨⟨s, f :: fs⟩, asked⟩)
    (hc : Kernel.Coherent ⟨s', gs ++ fs⟩) (hok : StepOk ⟨⟨s, f :: fs⟩, asked⟩ ev)
    (h : Next s f ev s' gs) :
    OnTrack ⟨⟨s', gs ++ fs⟩, next ⟨s, f :: fs⟩ ⟨s', gs ++ fs⟩ ev asked⟩ := by
  intro t a ha
  have hb : Kernel.Balanced ⟨s, f :: fs⟩ := Kernel.balanced hI.reach
  have hwaking : ∀ d, a.waking = some d → Kernel.Waking ⟨s', gs ++ fs⟩ t a.prio d :=
    fun d hd => (hI.wakes_next hok h ha hd).waking
  obtain ⟨a, hasks, rfl⟩ := Option.map_eq_some_iff.mp ha
  rcases Kernel.askedNext_some hasks with ⟨b, hasked, hprio, -, hnull, hwait⟩ | ⟨rfl, e, rfl, hcall⟩
  · have hold : Scheduled ⟨⟨s, f :: fs⟩, asked⟩ t b := hI.onTrack t b hasked
    exact hold.next hasked hc hok h ((Asked.wokenBy_prio a).trans hprio) hnull
      (fun hw => hwait ((Asked.wokenBy_waiting a).symm.trans hw)) hwaking
  · have htick : TickOk ⟨⟨s, f :: fs⟩, asked⟩ f := hok rfl f fs rfl
    have hnew : (Asked.wokenBy ⟨e, true, none⟩ ⟨s, f :: fs⟩ ⟨s', gs ++ fs⟩ .tick t).waking =
        none := new_waking (hcall.imp_right And.left)
    rcases hcall with hcall | ⟨hcall, hflag⟩
    · exact scheduled_of_push hb hc htick h hcall (Asked.wokenBy_prio _) hnew
    · exact scheduled_of_skip hb hc htick h hcall hflag (Asked.wokenBy_prio _) hnew

end Step

theorem OnTrack.of_next {k k' : Kernel N T V} {ev : Event T V} {asked : T → Option (Asked N)}
    {t : T} {a : Asked N} (hk : OnTrack ⟨k', next k k' ev asked⟩)
    (ha : k.askedNext ev asked t = some a) :
    k'.shared.ptr t = some a.prio ∧ (∀ e, k'.Heads t e → e = a.prio) ∧
      (a.waiting = true → t ∈ k'.shared.queue a.prio) := by
  have hnext : next k k' ev asked t = some (a.wokenBy k k' ev t) := by
    unfold next
    rw [ha, Option.map_some]
  obtain ⟨hptr, hheads, hwaiting, -⟩ := hk t (a.wokenBy k k' ev t) hnext
  rw [Asked.wokenBy_prio] at hptr hwaiting
  rw [Asked.wokenBy_waiting] at hwaiting
  simp only [Asked.wokenBy_prio] at hheads
  exact ⟨hptr, hheads, fun hw => (hwaiting hw).1⟩

theorem stepOk_of_onTrack {s s' : Shared N T V} {f : Frame N T V} {ev : Event T V}
    {fs gs : List (Frame N T V)} {asked : T → Option (Asked N)} (h : Next s f ev s' gs)
    (hk : OnTrack ⟨⟨s', gs ++ fs⟩, next ⟨s, f :: fs⟩ ⟨s', gs ++ fs⟩ ev asked⟩) :
    StepOk ⟨⟨s, f :: fs⟩, asked⟩ ev := by
  rintro rfl f' fs' hf
  obtain ⟨rfl, rfl⟩ := List.cons.inj (show f :: fs = f' :: fs' from hf)
  -- a poll goes on over the accesses of a call
  have hpolled : ∀ (t : T) (e : Fin N) (c' : Option (Call N T)), gs = [f.setCall c'] →
      (∀ q, Kernel.Heads ⟨s', gs ++ fs⟩ t q → q = e) →
      PolledOnlyBy ⟨⟨s, f :: fs⟩, asked⟩ t e := by
    intro t e c' hgs hheads g hg q hp
    rcases List.mem_cons.mp hg with rfl | hg
    · refine hheads q (Or.inr (Or.inr ⟨g.setCall c', ?_, ?_⟩))
      · rw [hgs]
        exact List.mem_cons_self
      · rw [Frame.setCall_polling]
        exact hp
    · exact hheads q (Or.inr (Or.inr ⟨g, List.mem_append_right _ hg, hp⟩))
  refine ⟨fun t e a hcall hclear ha => ?_, fun t e hcall hflag => ?_, fun t e hcall => ?_,
    fun t e a hf hfn ha => ?_⟩
  · -- the push is owed after the step
    obtain ⟨-, hheads, -⟩ := hk.of_next ((congrFun (s.askedTick_clear hcall hclear) t).trans ha)
    obtain ⟨f', hgs, hp⟩ := h.owes hcall hclear
    exact hheads e (Or.inr (Or.inl ⟨f', by rw [hgs]; exact List.mem_cons_self, hp⟩))
  · have hnew : Kernel.askedNext ⟨s, f :: fs⟩ .tick asked t = some ⟨e, true, none⟩ := by
      show s.askedTick f asked t = _
      rw [s.askedTick_skip hcall hflag, update_self]
    obtain ⟨hptr, hheads, hin⟩ := hk.of_next hnew
    obtain ⟨c', hc', hgs⟩ := h.calling hcall
    have hsame : s'.queue = s.queue ∧ s'.ptr = s.ptr := by
      cases callStep_next hc' with
      | _ => exact ⟨rfl, s.runEnqueue_ptr t⟩
    rw [hsame.1] at hin
    rw [hsame.2] at hptr
    exact ⟨hin rfl, hptr, hpolled t e c' hgs hheads⟩
  · have hnew : Kernel.askedNext ⟨s, f :: fs⟩ .tick asked t = some ⟨e, true, none⟩ := by
      show s.askedTick f asked t = _
      rw [s.askedTick_push hcall, update_self]
    obtain ⟨-, hheads, -⟩ := hk.of_next hnew
    obtain ⟨c', -, hgs⟩ := h.calling hcall
    exact hpolled t e c' hgs hheads
  · subst hf
    have hsame : Kernel.askedNext ⟨s, .run e (.got t) :: fs⟩ .tick asked t = some a := ha
    obtain ⟨-, hheads, -⟩ := hk.of_next hsame
    cases h with
    | call hu _ => cases hu
    | gotPoll =>
      exact hheads e (Or.inr (Or.inr ⟨.run e (.poll t none), List.mem_cons_self, rfl⟩))
    | gotExited hfn' =>
      rw [show (s.tasks t).pollFn = some .poll from hfn] at hfn'
      cases hfn'

/-- Where one incarnation of a task at most is about, every step finds what it
must. -/
theorem stepOk_of_sole {h : History N T V} {ev : Event T V} (hon : OnTrack h)
    (hb : h.kernel.Balanced) (hsole : ∀ t, h.kernel.Sole t) : StepOk h ev := by
  rintro rfl f fs hframes
  have hmem : f ∈ h.kernel.frames := hframes ▸ List.mem_cons_self
  have hptr : ∀ t a, h.asked t = some a → h.kernel.InHand t a.prio := fun t a ha =>
    Or.inl (hon t a ha).ptr
  have htarget : ∀ t e, f.target = some (t, e) → h.kernel.InHand t e := fun t e hf =>
    Or.inr (Or.inr (Or.inl ⟨f, hmem, hf⟩))
  refine ⟨fun t e a hcall _ ha => ?_, fun t e hcall hflag => ?_, fun t e hcall g hg q hp => ?_,
    fun t e a hf _ ha => ?_⟩
  · refine (hsole t).one e a.prio (htarget t e ?_) (hptr t a ha)
    rcases hcall with hcall | hcall <;> (rw [Frame.target, hcall]; rfl)
  · have hk : h.kernel = ⟨h.kernel.shared, f :: fs⟩ := by rw [← hframes]
    have hst : Kernel.Sole ⟨h.kernel.shared, f :: fs⟩ t := hk ▸ hsole t
    rw [hst.flag_clear (hk ▸ hb) hcall] at hflag
    cases hflag
  · refine (hsole t).one q e (Or.inr (Or.inr (Or.inr ⟨g, hg, Frame.serving_of_polling hp⟩)))
      (htarget t e ?_)
    rw [Frame.target, hcall]
    rfl
  · exact (hsole t).one e a.prio (Or.inr (Or.inr (Or.inr ⟨f, hmem, by rw [hf]; rfl⟩)))
      (hptr t a ha)

theorem step_some {h h' : History N T V} {ev : Event T V} (hs : step h ev = some h') :
    ∃ f fs s' gs, h = ⟨⟨h.kernel.shared, f :: fs⟩, h.asked⟩ ∧
      h' = ⟨⟨s', gs ++ fs⟩, next h.kernel ⟨s', gs ++ fs⟩ ev h.asked⟩ ∧
      Kernel.step h.kernel ev = some h'.kernel ∧ Next h.kernel.shared f ev s' gs := by
  obtain ⟨k', hk', rfl⟩ := Option.map_eq_some_iff.mp hs
  obtain ⟨f, fs, s', gs, hk, rfl, hnext⟩ := Kernel.step_next hk'
  exact ⟨f, fs, s', gs, by rw [← hk], rfl, hk', hnext⟩

theorem init_inv : Inv (init : History N T V) where
  reach := .refl _
  onTrack t a ha := by cases ha
  wakes t a d ha := by cases ha

theorem Inv.next {h h' : History N T V} {ev : Event T V} (hI : Inv h) (hok : StepOk h ev)
    (hs : step h ev = some h') : Inv h' := by
  obtain ⟨f, fs, s', gs, hh, rfl, hk, hnext⟩ := step_some hs
  have hr' : Kernel.Reachable ⟨s', gs ++ fs⟩ := hI.reach.tail trivial hk
  rw [hh] at hI hok ⊢
  exact ⟨hr', hI.onTrack_next (Kernel.coherent hr') hok hnext,
    fun t a d ha hd => hI.wakes_next hok hnext ha hd⟩

/-- **Spawning schedules the task where it was asked**, in every state that a
run visits, exactly when each step of the run finds what it must: the flag of
an incarnation is set on behalf of the executor it was asked for at,
`Spawner::spawn` finds the flag clear or the task already where it is asked
for, with nobody else inside its poll, and only that executor begins to poll
it. And so does every step of a run in which `TaskStorage::spawn` sets
`SPAWNED` only of a task that nobody has in hand any more. -/
theorem on_track_iff (es : List (Event T V)) :
    (Always step OnTrack (init (N := N)) es ↔ Along step StepOk (init (N := N)) es) ∧
    (Along step (fun h ev => h.kernel.SpawnsFresh ev) (init (N := N)) es →
      Along step StepOk (init (N := N)) es) := by
  refine ⟨always_iff_along (I := Inv) (fun h hI => hI.onTrack) (fun h ev h' => Inv.next) ?_ init_inv,
    along_of_along (I := fun h => Inv h ∧ ∀ t, h.kernel.Sole t) ?_ ?_ ⟨init_inv, Kernel.Sole.init⟩⟩
  · intro h ev h' _ hs hon'
    obtain ⟨f, fs, s', gs, hh, rfl, -, hnext⟩ := step_some hs
    rw [hh] at hon' ⊢
    exact stepOk_of_onTrack hnext hon'
  · exact fun h ev ⟨hI, hsole⟩ => stepOk_of_sole hI.onTrack (Kernel.balanced hI.reach) hsole
  · intro h ev h' ⟨hI, hsole⟩ hok hs
    have hstep : Kernel.step h.kernel ev = some h'.kernel := by
      obtain ⟨_, _, _, _, -, -, hk, -⟩ := step_some hs
      exact hk
    exact ⟨hI.next (stepOk_of_sole hI.onTrack (Kernel.balanced hI.reach) hsole) hs,
      Kernel.sole_next hsole hok hstep⟩

/-- A task asked for at priority 1 wakes itself in the poll that returns
`Ready`. Before its executor dequeues the link that this leaves, a handler
spawns on the storage again, at priority 0. -/
def selfWake : List (Event Unit Unit) :=
  Event.spawnTask ⟨1⟩ () ++ .setMie true :: Event.machineSoft ++
    .tick :: .call (.wake ()) :: List.replicate 5 .tick ++
    .ready () :: .tick :: .tick :: .ret :: .tick :: .tick :: .trapIsr ::
    .call (.storageSpawn ()) :: List.replicate 5 .tick ++ [.call (.spawn ⟨0⟩ ()), .tick]

/-- The flag is still set, so the push is skipped: the task stays in the queue
of executor 1, and with a null back-pointer every later wake of it is lost. -/
theorem respawn_after_self_wake : ∃ h : History 2 Unit Unit,
    exec step init selfWake = some h ∧ h.asked () = some ⟨0, true, none⟩ ∧
      h.kernel.shared.ptr () = none ∧ () ∉ h.kernel.shared.queue 0 ∧
      ¬ Always step OnTrack (init : History 2 Unit Unit) selfWake := by
  have hobs : ((exec step (init : History 2 Unit Unit) selfWake).map fun h =>
      (h.asked (), h.kernel.shared.ptr (), h.kernel.shared.queue 0)) =
      some (some ⟨0, true, none⟩, none, []) := by decide +kernel
  obtain ⟨h, hexec, hobs⟩ := Option.map_eq_some_iff.mp hobs
  obtain ⟨hasked, hobs⟩ := Prod.mk.inj hobs
  obtain ⟨hptr, hq⟩ := Prod.mk.inj hobs
  refine ⟨h, hexec, hasked, hptr, by rw [hq]; exact List.not_mem_nil, fun halways => ?_⟩
  have hsched := halways.of_exec hexec () _ hasked
  have hsome := hsched.ptr
  rw [hptr] at hsome
  cases hsome

end History
end RtAsync

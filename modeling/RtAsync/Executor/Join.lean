/-
# Awaiting a task

A worker `t` is spawned once and its handle is polled any number of times, by
any activation and with any wakers. How the last `JoinHandle::poll` ended is
kept beside the hart, and for one in progress whether its waker has been woken
since it began.

`JoinHandle::poll` reads `join.result` and stores `join.waker` in two accesses.
A worker that completes between them finds no waker, or the one of an earlier
poll, and the waiter is not woken again. `Join.StepOk` is that this does not
happen; `Join.not_lost_iff` says that nothing else loses a completion.

Key definitions: `HandleState`, `Join.step`, `Join.Lost`, `Join.StepOk`.
Key theorems: `Next.joining`, `Join.Inv.next`, `Join.not_lost_iff`,
`Join.completion_lost`.
-/
import RtAsync.Executor.Incarnation
import RtAsync.Futures.Poll

namespace RtAsync

open Transition (Along Always always_iff_along exec)

variable {N : ℕ} {T V : Type} [DecidableEq T]

/-! ### The polls of a handle -/

/-- The waker of a `JoinHandle::poll` of the handle of `t` in progress. -/
def Call.joining (t : T) : Call N T → Option T
  | .joinTake u w => if u = t then some w else none
  | .joinStore u w => if u = t then some w else none
  | _ => none

def Frame.joining (t : T) (f : Frame N T V) : Option T := f.calling.bind (Call.joining t)

/-- A handle outside of `JoinHandle::poll`, or inside of it with waker `w`;
`woken` says that `w` has been woken since the poll began. -/
inductive HandleState (T : Type)
  | idle (last : LastPoll T)
  | polling (w : T) (woken : Bool)
  deriving DecidableEq, Repr

namespace HandleState

def wake (w : T) : HandleState T → HandleState T
  | idle last => idle (last.wake w)
  | polling v woken => polling v (woken || v = w)

/-- The waker of the poll in progress. -/
def inside : HandleState T → Option T
  | idle _ => none
  | polling w _ => some w

/-- The poll in progress returns `Pending`. -/
def pend : HandleState T → HandleState T
  | idle last => idle last
  | polling w woken => idle (.pending w woken)

/-- What the next access of the innermost activation does to the handle of `t`. -/
def tick (t : T) (s : Shared N T V) (f : Frame N T V) (h : HandleState T) : HandleState T :=
  match f.calling with
  | some (.joinTake u _) => if u = t ∧ (s.tasks t).join.result.isSome then idle .ready else h
  | some (.joinStore u _) => if u = t then h.pend else h
  | some _ => h
  | none => match f with
    | .run _ (.notify u) => match (s.tasks u).join.waker with
      | some w => h.wake w
      | none => h
    | _ => h

/-- The handle is made by `Spawner::spawn`, and polled by one activation at a
time. -/
def next (t : T) (k : Kernel N T V) (p : Phase) (ev : Event T V) (h : HandleState T) :
    Option (HandleState T) :=
  match ev with
  | .call (.wake w) => some (h.wake w)
  | .call (.joinPoll u w) =>
    if u = t then if p = .spawned ∧ h.inside = none then some (polling w false) else none
    else some h
  | .tick => match k.frames with
    | f :: _ => some (h.tick t k.shared f)
    | [] => some h
  | _ => some h

end HandleState

/-- The hart, a worker's incarnation and its handle. -/
structure Join (N : ℕ) (T V : Type) where
  kernel : Kernel N T V
  phase : Phase
  handle : HandleState T

namespace Join

def step (t : T) (j : Join N T V) (ev : Event T V) : Option (Join N T V) :=
  (j.kernel.step ev).bind fun k' => (j.phase.next t ev).bind fun p' =>
    (j.handle.next t j.kernel j.phase ev).map fun h' => ⟨k', p', h'⟩

/-- Before the worker is spawned. -/
def start (k : Kernel N T V) : Join N T V := ⟨k, .unspawned, .idle .unpolled⟩

/-- The worker has completed, its output lies in `join.result`, the last poll of
its handle returned `Pending`, and the waker of that poll has not been woken
since it began. -/
structure Lost (t : T) (j : Join N T V) : Prop where
  completed : (j.kernel.shared.tasks t).state.spawned = false
  output : (j.kernel.shared.tasks t).join.result.isSome = true
  unwoken : ∃ w, j.handle = .idle (.pending w false)

/-- At the store of `join.waker`, the worker has not completed since
`join.result` was read, or the waker has been woken since the poll began. -/
def StepOk (t : T) (j : Join N T V) (ev : Event T V) : Prop :=
  ev = .tick → ∀ f fs w, j.kernel.frames = f :: fs → f.calling = some (.joinStore t w) →
    (j.kernel.shared.tasks t).state.spawned = false →
    (j.kernel.shared.tasks t).join.result.isSome = true → j.handle ≠ .polling w false

end Join

/-! ### Who polls the handle -/

theorem HandleState.inside_wake (h : HandleState T) (w : T) : (h.wake w).inside = h.inside := by
  cases h <;> rfl

omit [DecidableEq T] in
theorem HandleState.inside_pend (h : HandleState T) : h.pend.inside = none := by
  cases h <;> rfl

/-- A wake leaves no poll with its waker unwoken. -/
theorem HandleState.of_wake {h : HandleState T} {v w : T}
    (hw : h.wake v = .idle (.pending w false)) : h = .idle (.pending w false) ∧ v ≠ w := by
  cases h with
  | polling => cases hw
  | idle last =>
    cases last with
    | pending u woken =>
      obtain ⟨rfl, hwk⟩ := LastPoll.pending.inj (HandleState.idle.inj hw)
      obtain ⟨rfl, hne⟩ := Bool.or_eq_false_iff.mp hwk
      exact ⟨rfl, fun he => of_decide_eq_false hne he.symm⟩
    | _ => cases hw

theorem HandleState.tick_store {s : Shared N T V} {f : Frame N T V} {h : HandleState T} {t w : T}
    (hc : f.calling = some (.joinStore t w)) : h.tick t s f = h.pend := by
  simp [tick, hc]

theorem Frame.joining_setCall {f : Frame N T V} {c : Option (Call N T)} (t : T)
    (h : f.user = some c) (c' : Option (Call N T)) :
    (f.setCall c').joining t = c'.bind (Call.joining t) := by
  rw [joining, setCall_calling h]

theorem callStep_joining {s s' : Shared N T V} {f : Frame N T V} {c : Call N T}
    {c' : Option (Call N T)} {t : T} {h : HandleState T} (hu : f.user = some (some c))
    (hc : callStep s c = some (s', c')) :
    (c'.bind (Call.joining t) = c.joining t ∧ h.tick t s f = h) ∨
    (∃ w, c = .joinTake t w ∧ c' = none ∧ h.tick t s f = .idle .ready) ∨
    ∃ w, c = .joinStore t w ∧ c' = none ∧ h.tick t s f = h.pend := by
  have hcall : f.calling = some c := Frame.calling_eq hu
  unfold HandleState.tick
  rw [hcall]
  cases callStep_next hc with
  | @joinTake u w v hv =>
    by_cases hut : u = t
    · subst hut
      exact Or.inr (Or.inl ⟨w, rfl, rfl, if_pos ⟨rfl, by rw [hv]; rfl⟩⟩)
    · exact Or.inl ⟨(if_neg hut).symm, if_neg fun hn => hut hn.1⟩
  | @joinWait u w hv =>
    refine Or.inl ⟨rfl, if_neg fun hn => ?_⟩
    rw [← hn.1, hv] at hn
    cases hn.2
  | joinStore u w =>
    by_cases hut : u = t
    · subst hut
      exact Or.inr (Or.inr ⟨w, rfl, rfl, if_pos rfl⟩)
    · exact Or.inl ⟨(if_neg hut).symm, if_neg hut⟩
  | _ => exact Or.inl ⟨rfl, rfl⟩

/-- A poll of the handle begins. -/
theorem callStart_joining {s s' : Shared N T V} {r : Request T} {c : Call N T} {t : T}
    {k : Kernel N T V} {p : Phase} {h h' : HandleState T} (hc : callStart s r = some (s', c))
    (hh : h.next t k p (.call r) = some h') :
    (c.joining t = none ∧ h'.inside = h.inside) ∨
      ∃ w, r = .joinPoll t w ∧ p = .spawned ∧ h.inside = none ∧ c.joining t = some w ∧
        h' = .polling w false := by
  cases callStart_next hc with
  | wake w =>
    obtain rfl := Option.some.inj hh
    exact Or.inl ⟨rfl, h.inside_wake w⟩
  | storageSpawn u =>
    obtain rfl := Option.some.inj hh
    exact Or.inl ⟨rfl, rfl⟩
  | spawn =>
    obtain rfl := Option.some.inj hh
    exact Or.inl ⟨rfl, rfl⟩
  | joinPoll u w =>
    unfold HandleState.next at hh
    by_cases hut : u = t
    · subst hut
      simp only [if_pos] at hh
      obtain ⟨⟨hp, hin⟩, hh⟩ := Option.ite_none_right_eq_some.mp hh
      exact Or.inr ⟨w, rfl, hp, hin, if_pos rfl, (Option.some.inj hh).symm⟩
    · simp only [if_neg hut] at hh
      obtain rfl := Option.some.inj hh
      exact Or.inl ⟨if_neg hut, rfl⟩

omit [DecidableEq T] in
/-- At most one activation is inside a poll of the handle, so none is left when
the innermost one returns from it. -/
theorem joining_tail {h : HandleState T} {l : List T} {w : T} (hj : w :: l = h.inside.toList) :
    l = [] := by
  cases h with
  | idle => cases hj
  | polling v woken => exact (List.cons.inj hj).2

/-- The activations inside `JoinHandle::poll` are those of the handle. -/
theorem Next.joining {s s' : Shared N T V} {f : Frame N T V} {ev : Event T V}
    {fs gs : List (Frame N T V)} {t : T} {p : Phase} {h h' : HandleState T}
    (hn : Next s f ev s' gs) (hh : h.next t ⟨s, f :: fs⟩ p ev = some h')
    (hj : (f :: fs).filterMap (Frame.joining t) = h.inside.toList) :
    (gs ++ fs).filterMap (Frame.joining t) = h'.inside.toList := by
  have hcons : (f.joining t).toList ++ fs.filterMap (Frame.joining t) = h.inside.toList := by
    rw [← hj, ← filterMap_singleton, ← List.filterMap_append, List.singleton_append]
  rw [List.filterMap_append]
  have hkeep : gs.filterMap (Frame.joining t) = (f.joining t).toList → h'.inside = h.inside →
      gs.filterMap (Frame.joining t) ++ fs.filterMap (Frame.joining t) = h'.inside.toList := by
    intro hgs hin
    rw [hgs, hin, hcons]
  cases hn with
  | @call _ c _ c' hu hc =>
    have hf : f.joining t = c.joining t := by
      rw [Frame.joining, Frame.calling_eq hu, Option.bind_some]
    have hgs : [f.setCall c'].filterMap (Frame.joining t) = (c'.bind (Call.joining t)).toList := by
      rw [filterMap_singleton, Frame.joining_setCall t hu]
    have hh : h.tick t s f = h' := Option.some.inj hh
    rcases callStep_joining (t := t) (h := h) hu hc with ⟨hc', hh'⟩ | ⟨w, rfl, rfl, hh'⟩ |
      ⟨w, rfl, rfl, hh'⟩
    · exact hkeep (by rw [hgs, hc', hf]) (by rw [← hh, hh'])
    · rw [hf, Call.joining, if_pos rfl] at hcons
      have hnil : fs.filterMap (Frame.joining t) = [] := joining_tail hcons
      rw [hgs, ← hh, hh', hnil]
      rfl
    · rw [hf, Call.joining, if_pos rfl] at hcons
      have hnil : fs.filterMap (Frame.joining t) = [] := joining_tail hcons
      rw [hgs, ← hh, hh', hnil, h.inside_pend]
      rfl
  | @begin _ r _ c hu hc =>
    have hf : f.joining t = none := by
      rw [Frame.joining, Frame.calling_eq hu, Option.bind_none]
    have hgs : [f.setCall (some c)].filterMap (Frame.joining t) = (c.joining t).toList := by
      rw [filterMap_singleton, Frame.joining_setCall t hu, Option.bind_some]
    rcases callStart_joining hc hh with ⟨hc', hin⟩ | ⟨w, -, -, hin, hc', rfl⟩
    · exact hkeep (by rw [hgs, hc', hf]) hin
    · rw [hf, hin, Option.toList_none, List.nil_append] at hcons
      rw [hgs, hc', hcons]
      rfl
  | @notify e u _ hn =>
    have hh : h.tick t s (.run e (.notify u)) = h' := Option.some.inj hh
    refine hkeep rfl ?_
    rw [← hh]
    show HandleState.inside (match (s.tasks u).join.waker with
      | some w => h.wake w
      | none => h) = h.inside
    split
    · exact h.inside_wake _
    · rfl
  | setMie => exact hkeep (filterMap_singleton _ _) (by rw [Option.some.inj hh])
  | external => exact hkeep (filterMap_singleton _ _) (by rw [Option.some.inj hh])
  | trapSoft => exact hkeep (filterMap_singleton _ f) (by rw [Option.some.inj hh])
  | trapIsr => exact hkeep (filterMap_singleton _ f) (by rw [Option.some.inj hh])
  | clear sys => exact hkeep (by cases sys <;> rfl) (by rw [← Option.some.inj hh]; rfl)
  | _ => exact hkeep rfl (congrArg HandleState.inside (Option.some.inj hh).symm)

namespace Join

/-- What holds while the worker is spawned once. -/
structure Inv (t : T) (j : Join N T V) : Prop where
  reachable : j.kernel.Reachable
  once : j.kernel.Once t j.phase
  joining : j.kernel.frames.filterMap (Frame.joining t) = j.handle.inside.toList
  unspawned : j.phase ≠ .spawned → j.handle = .idle .unpolled
  waker : ∀ w, j.handle = .idle (.pending w false) →
    (j.kernel.shared.tasks t).state.spawned = true →
    (j.kernel.shared.tasks t).join.waker = some w
  kept : ¬Lost t j

/-- A handle whose last poll returned `Pending`, not woken: it was so before,
and the step does not wake it, or the poll in progress returns. -/
theorem pending_next {s s' : Shared N T V} {f : Frame N T V} {ev : Event T V}
    {fs gs : List (Frame N T V)} {t w : T} {p : Phase} {h h' : HandleState T}
    (hn : Next s f ev s' gs) (hh : h.next t ⟨s, f :: fs⟩ p ev = some h')
    (hw : h' = .idle (.pending w false)) :
    (h = .idle (.pending w false) ∧ ∀ q u, ev = .tick → f = .run q (.notify u) →
      (s.tasks u).join.waker ≠ some w) ∨
    (ev = .tick ∧ (∃ v, f.calling = some (.joinStore t v)) ∧ h = .polling w false) := by
  have hkeep : h' = h → (∀ q u, f = .run q (.notify u) → ev = .tick →
      (s.tasks u).join.waker ≠ some w) → (h = .idle (.pending w false) ∧ ∀ q u, ev = .tick →
      f = .run q (.notify u) → (s.tasks u).join.waker ≠ some w) ∨
      (ev = .tick ∧ (∃ v, f.calling = some (.joinStore t v)) ∧ h = .polling w false) :=
    fun he hno => Or.inl ⟨he ▸ hw, fun q u hev hf => hno q u hf hev⟩
  cases hn with
  | @call _ c _ c' hu hc =>
    have hno : ∀ q u, f ≠ .run q (.notify u) := fun q u hf => by rw [hf] at hu; cases hu
    have hh : h.tick t s f = h' := Option.some.inj hh
    rcases callStep_joining (t := t) (h := h) hu hc with ⟨-, hh'⟩ | ⟨v, rfl, rfl, hh'⟩ |
      ⟨v, rfl, rfl, hh'⟩
    · exact hkeep (by rw [← hh, hh']) fun q u hf => absurd hf (hno q u)
    · rw [← hh, hh'] at hw
      cases hw
    · rw [← hh, hh'] at hw
      cases h with
      | idle last => exact Or.inl ⟨hw, fun q u _ hf => absurd hf (hno q u)⟩
      | polling u woken =>
        obtain ⟨rfl, rfl⟩ := LastPoll.pending.inj (HandleState.idle.inj hw)
        exact Or.inr ⟨rfl, ⟨v, Frame.calling_eq hu⟩, rfl⟩
  | @begin _ r _ c hu hc =>
    cases r with
    | wake v =>
      have hh : h.wake v = h' := Option.some.inj hh
      rw [← hh] at hw
      exact Or.inl ⟨(HandleState.of_wake hw).1, fun _ _ hev => by cases hev⟩
    | joinPoll u v =>
      unfold HandleState.next at hh
      simp only at hh
      split at hh
      · obtain ⟨-, hh⟩ := Option.ite_none_right_eq_some.mp hh
        rw [← Option.some.inj hh] at hw
        cases hw
      · exact hkeep (Option.some.inj hh).symm fun _ _ _ hev => by cases hev
    | _ => exact hkeep (Option.some.inj hh).symm fun _ _ _ hev => by cases hev
  | @notify e u _ hn =>
    have hh : (match (s.tasks u).join.waker with
      | some w => h.wake w
      | none => h) = h' := Option.some.inj hh
    cases hwk : (s.tasks u).join.waker with
    | none =>
      rw [hwk] at hh
      refine hkeep hh.symm fun q v hf _ => ?_
      cases hf
      rw [hwk]
      exact fun he => by cases he
    | some v =>
      rw [hwk] at hh
      rw [← hh] at hw
      obtain ⟨hw, hne⟩ := HandleState.of_wake hw
      refine Or.inl ⟨hw, fun q u' _ hf => ?_⟩
      cases hf
      rw [hwk]
      exact fun he => hne (Option.some.inj he)
  | setMie => exact hkeep (Option.some.inj hh).symm fun _ _ _ hev => by cases hev
  | external => exact hkeep (Option.some.inj hh).symm fun _ _ _ hev => by cases hev
  | trapSoft => exact hkeep (Option.some.inj hh).symm fun _ _ _ hev => by cases hev
  | trapIsr => exact hkeep (Option.some.inj hh).symm fun _ _ _ hev => by cases hev
  | _ => exact hkeep (Option.some.inj hh).symm fun _ _ hf => by cases hf

theorem Phase.ne_spawned {t : T} {ev : Event T V} {p p' : Phase} (h : p.next t ev = some p')
    (hp' : p' ≠ .spawned) : p ≠ .spawned := by
  rintro rfl
  unfold Phase.next at h
  split at h
  · cases h
  · split at h <;> exact hp' (Option.some.inj h).symm

namespace Inv

variable {s s' : Shared N T V} {f : Frame N T V} {ev : Event T V} {fs gs : List (Frame N T V)}
  {t w : T} {p p' : Phase} {h h' : HandleState T}

/-- Once the handle has been polled, no `TaskStorage::spawn` works on `t`. -/
theorem not_storing (hI : Inv t ⟨⟨s, f :: fs⟩, p, h⟩) (hw : h = .idle (.pending w false)) :
    f.storing ≠ some t := by
  intro hs
  have hp : p = .spawned := Decidable.of_not_not fun hne => by
    have hun : h = .idle .unpolled := hI.unspawned hne
    rw [hw] at hun
    cases hun
  have hpos := pledges_pos (s := s) (List.mem_cons_self (l := fs)) hs
  have hle : pledges s (f :: fs) t ≤ if p = .token then 1 else 0 := hI.once.pledged
  rw [hp, if_neg (by decide)] at hle
  omega

/-- Outside of its polls nobody stores the waker of the handle. -/
theorem not_storing_waker (hI : Inv t ⟨⟨s, f :: fs⟩, p, h⟩) (hw : h = .idle (.pending w false))
    (v : T) : f.calling ≠ some (.joinStore t v) := by
  intro hc
  have hj : (f :: fs).filterMap (Frame.joining t) = h.inside.toList := hI.joining
  have hf : f.joining t = some v := by
    rw [Frame.joining, hc, Option.bind_some, Call.joining, if_pos rfl]
  rw [hw, List.filterMap_cons_some hf] at hj
  cases hj

/-- While the last poll returned `Pending` and was not woken, and the worker has
not completed, its waker is the one in `join.waker`. -/
theorem waker_next (hI : Inv t ⟨⟨s, f :: fs⟩, p, h⟩) (hn : Next s f ev s' gs)
    (hh : h.next t ⟨s, f :: fs⟩ p ev = some h') (hw : h' = .idle (.pending w false))
    (hs : (s'.tasks t).state.spawned = true) : (s'.tasks t).join.waker = some w := by
  rcases pending_next hn hh hw with ⟨hb, -⟩ | ⟨rfl, ⟨v, hc⟩, hb⟩
  · have hwaker : (s.tasks t).state.spawned = true → (s.tasks t).join.waker = some w :=
      hI.waker w hb
    cases hn.taskEffect t with
    | keep hsame =>
      rw [hsame.join]
      exact hwaker (hsame.spawned ▸ hs)
    | storage hst _ _ => exact absurd hst (hI.not_storing hb)
    | take v _ hsame hj =>
      rw [hj]
      exact hwaker (hsame.spawned ▸ hs)
    | store v hc _ _ => exact absurd hc (hI.not_storing_waker hb v)
    | result _ _ _ hsame hj =>
      rw [hj]
      exact hwaker (hsame.spawned ▸ hs)
    | exited _ _ hsame _ =>
      have hjoin : (s'.tasks t).join = (s.tasks t).join := hsame.join
      rw [hjoin]
      exact hwaker (hsame.spawned ▸ hs)
    | notify _ _ hsp _ _ =>
      rw [hsp] at hs
      cases hs
  · have hf : f.joining t = some v := by
      rw [Frame.joining, hc, Option.bind_some, Call.joining, if_pos rfl]
    have hj : (f :: fs).filterMap (Frame.joining t) = h.inside.toList := hI.joining
    rw [hb, List.filterMap_cons_some hf] at hj
    obtain rfl : v = w := (List.cons.inj hj).1
    obtain ⟨c', hstep, -⟩ := hn.calling hc
    obtain ⟨rfl, -⟩ := Prod.mk.inj (Option.some.inj hstep)
    rw [Shared.setTask_self]

/-- A step that meets the condition does not lose the completion. -/
theorem kept_next (hI : Inv t ⟨⟨s, f :: fs⟩, p, h⟩) (hok : StepOk t ⟨⟨s, f :: fs⟩, p, h⟩ ev)
    (hn : Next s f ev s' gs) (hh : h.next t ⟨s, f :: fs⟩ p ev = some h') :
    ¬Lost t ⟨⟨s', gs ++ fs⟩, p', h'⟩ := by
  rintro ⟨hdone, hout, w, hw⟩
  have hdone : (s'.tasks t).state.spawned = false := hdone
  have hout : (s'.tasks t).join.result.isSome = true := hout
  have hin : ∀ q r, f = .run q r → f.within = some t → (s.tasks t).state.spawned = true :=
    fun q r _ hwi => hI.once.within f List.mem_cons_self hwi
  rcases pending_next hn hh hw with ⟨hb, hno⟩ | ⟨rfl, ⟨v, hc⟩, hb⟩
  · have hkept : (s.tasks t).state.spawned = false → (s.tasks t).join.result.isSome = true → False :=
      fun hd ho => hI.kept ⟨hd, ho, w, hb⟩
    cases hn.taskEffect t with
    | keep hsame => exact hkept (hsame.spawned ▸ hdone) (hsame.join ▸ hout)
    | storage hst _ _ => exact absurd hst (hI.not_storing hb)
    | take v _ _ hj =>
      rw [hj] at hout
      cases hout
    | store v hc _ _ => exact absurd hc (hI.not_storing_waker hb v)
    | result q v hf hsame _ =>
      have hsp : (s'.tasks t).state.spawned = (s.tasks t).state.spawned := hsame.spawned
      rw [hsp, hin q _ hf (by rw [hf]; rfl)] at hdone
      cases hdone
    | exited _ _ hsame _ =>
      have hsp : (s'.tasks t).state.spawned = (s.tasks t).state.spawned := hsame.spawned
      have hj : (s'.tasks t).join = (s.tasks t).join := hsame.join
      exact hkept (hsp ▸ hdone) (hj ▸ hout)
    | notify q hf _ _ _ =>
      have hsp : (s.tasks t).state.spawned = true := hin q _ hf (by rw [hf]; rfl)
      subst hf
      rcases hn.of_notify with ⟨-, htasks⟩ | ⟨hev, -, -⟩
      · rw [htasks, hsp] at hdone
        cases hdone
      · -- the completion wakes the waker that the last poll has stored
        exact hno q t hev rfl (hI.waker w hb hsp)
  · obtain ⟨c', hstep, -⟩ := hn.calling hc
    obtain ⟨rfl, -⟩ := Prod.mk.inj (Option.some.inj hstep)
    rw [Shared.setTask_self] at hdone hout
    have hf : f.joining t = some v := by
      rw [Frame.joining, hc, Option.bind_some, Call.joining, if_pos rfl]
    have hj : (f :: fs).filterMap (Frame.joining t) = h.inside.toList := hI.joining
    rw [hb, List.filterMap_cons_some hf] at hj
    obtain rfl : v = w := (List.cons.inj hj).1
    exact hok rfl f fs v rfl hc hdone hout hb

/-- Before `Spawner::spawn` there is no handle to poll. -/
theorem unspawned_next (hI : Inv t ⟨⟨s, f :: fs⟩, p, h⟩) (hn : Next s f ev s' gs)
    (hh : h.next t ⟨s, f :: fs⟩ p ev = some h') (hp : p ≠ .spawned) : h' = .idle .unpolled := by
  have hun : h = .idle .unpolled := hI.unspawned hp
  have hj : (f :: fs).filterMap (Frame.joining t) = h.inside.toList := hI.joining
  have hnone : f.joining t = none := by
    rw [hun] at hj
    have := List.filterMap_eq_nil_iff.mp hj
    exact this f List.mem_cons_self
  cases hn with
  | @call _ c _ c' hu hc =>
    have hh : h.tick t s f = h' := Option.some.inj hh
    have hcj : c.joining t = none := by
      rwa [Frame.joining, Frame.calling_eq hu, Option.bind_some] at hnone
    rcases callStep_joining (t := t) (h := h) hu hc with ⟨-, hh'⟩ | ⟨v, rfl, -, -⟩ |
      ⟨v, rfl, -, -⟩
    · rw [← hh, hh', hun]
    · rw [Call.joining, if_pos rfl] at hcj
      cases hcj
    · rw [Call.joining, if_pos rfl] at hcj
      cases hcj
  | @begin _ r _ c hu hc =>
    cases r with
    | wake v =>
      rw [← Option.some.inj hh, hun]
      rfl
    | joinPoll u v =>
      rcases callStart_joining hc hh with ⟨-, -⟩ | ⟨_, -, hps, -⟩
      · unfold HandleState.next at hh
        simp only at hh
        split at hh
        · exact absurd (Option.ite_none_right_eq_some.mp hh).1.1 hp
        · rw [← Option.some.inj hh, hun]
      · exact absurd hps hp
    | _ => rw [← Option.some.inj hh, hun]
  | @notify e u _ hn =>
    have hh : (match (s.tasks u).join.waker with
      | some w => h.wake w
      | none => h) = h' := Option.some.inj hh
    split at hh
    · rw [← hh, hun]
      rfl
    · rw [← hh, hun]
  | _ => exact (Option.some.inj hh).symm.trans hun

theorem next (hI : Inv t ⟨⟨s, f :: fs⟩, p, h⟩) (hok : StepOk t ⟨⟨s, f :: fs⟩, p, h⟩ ev)
    (hr : Kernel.Reachable ⟨s', gs ++ fs⟩) (hn : Next s f ev s' gs)
    (hp : p.next t ev = some p') (hh : h.next t ⟨s, f :: fs⟩ p ev = some h') :
    Inv t ⟨⟨s', gs ++ fs⟩, p', h'⟩ where
  reachable := hr
  once := hI.once.next (Kernel.nested hI.reachable).2 hp hn
  joining := hn.joining hh hI.joining
  unspawned hp' := hI.unspawned_next hn hh (Phase.ne_spawned hp hp')
  waker _ hw hs := hI.waker_next hn hh hw hs
  kept := hI.kept_next hok hn hh

end Inv

theorem step_some {t : T} {j j' : Join N T V} {ev : Event T V} (hs : step t j ev = some j') :
    ∃ f fs s' gs, j = ⟨⟨j.kernel.shared, f :: fs⟩, j.phase, j.handle⟩ ∧
      j'.kernel = ⟨s', gs ++ fs⟩ ∧ j.kernel.step ev = some j'.kernel ∧
      Next j.kernel.shared f ev s' gs ∧ j.phase.next t ev = some j'.phase ∧
      j.handle.next t ⟨j.kernel.shared, f :: fs⟩ j.phase ev = some j'.handle := by
  obtain ⟨k', hk', hs⟩ := Option.bind_eq_some_iff.mp hs
  obtain ⟨p', hp', hs⟩ := Option.bind_eq_some_iff.mp hs
  obtain ⟨h', hh', rfl⟩ := Option.map_eq_some_iff.mp hs
  obtain ⟨f, fs, s', gs, hk, rfl, hn⟩ := Kernel.step_next hk'
  refine ⟨f, fs, s', gs, ?_, rfl, hk', hn, hp', ?_⟩
  · rw [← hk]
  · rw [← hk]
    exact hh'

/-- The storage is not in use, and nobody polls a handle of it. -/
structure Fresh (t : T) (k : Kernel N T V) : Prop where
  reachable : k.Reachable
  unused : k.Unused t
  joining : k.frames.filterMap (Frame.joining t) = []

theorem Fresh.inv {t : T} {k : Kernel N T V} (h : Fresh t k) : Inv t (start k) where
  reachable := h.reachable
  once := h.unused.once
  joining := h.joining
  unspawned _ := rfl
  waker _ hw := by cases hw
  kept := fun ⟨_, _, _, hw⟩ => by cases hw

/-- **No completion is lost**, in every state that a run visits, exactly when no
`JoinHandle::poll` stores its waker after the worker has completed since it
read `join.result`, unless the waker has been woken since the poll began. -/
theorem not_lost_iff {t : T} {k : Kernel N T V} (h : Fresh t k) (es : List (Event T V)) :
    Always (step t) (fun j => ¬Lost t j) (start k) es ↔ Along (step t) (StepOk t) (start k) es := by
  refine always_iff_along (I := Inv t) (fun j hI => hI.kept) ?_ ?_ h.inv
  · intro j ev j' hI hok hs
    obtain ⟨f, fs, s', gs, hj, hk', hstep, hn, hp, hh⟩ := step_some hs
    have hr := hI.reachable.tail trivial hstep
    rw [hj] at hI hok
    have hnext := hI.next hok (hk' ▸ hr) hn hp hh
    rw [← hk'] at hnext
    exact hnext
  · intro j ev j' hI hs hkept hev f fs w hf hc hdone hout hw
    obtain ⟨f', fs', s', gs, hj, hk', -, hn, -, hh⟩ := step_some hs
    have hff : f' = f := by
      rw [hj] at hf
      exact (List.cons.inj hf).1
    rw [hff] at hn hh
    subst hev
    obtain ⟨c', hstep, -⟩ := hn.calling hc
    obtain ⟨hs', -⟩ := Prod.mk.inj (Option.some.inj hstep)
    refine hkept ⟨?_, ?_, w, ?_⟩
    · rw [hk', ← hs', Shared.setTask_self]
      exact hdone
    · rw [hk', ← hs', Shared.setTask_self]
      exact hout
    · have htick : j.handle.tick t j.kernel.shared f = j'.handle := Option.some.inj hh
      rw [← htick, HandleState.tick_store hc, hw]
      rfl

theorem fresh_init (t : T) : Fresh t (.init : Kernel N T V) where
  reachable := .refl _
  unused :=
    { pledges := rfl
      nobody := by
        rintro e (h | h | ⟨f, hf, h⟩ | ⟨f, hf, h⟩)
        · cases h
        · cases h
        · rw [List.mem_singleton.mp hf] at h
          cases h
        · rw [List.mem_singleton.mp hf] at h
          cases h
      pollFn := fun h => by cases h }
  joining := rfl

/-- The waiter (`true`, at priority 1) spawns the worker (`false`, at priority
0), which returns `Pending` at its first poll. Then the waiter polls the
handle; after it has read `join.result` an interrupt wakes the worker, which
preempts the waiter and completes. -/
def lateWake : List (Event Bool Unit) :=
  List.flatten [Event.spawnTask ⟨1⟩ true, [.setMie true], Event.machineSoft, [.tick],
    Event.spawnTask ⟨0⟩ false, Event.machineSoft, [.tick, .pending], List.replicate 5 .tick,
    [.call (.joinPoll false true), .tick, .trapIsr, .call (.wake false)], List.replicate 5 .tick,
    [.ret], Event.machineSoft, [.tick, .ready (), .tick, .tick, .ret, .tick, .tick],
    List.replicate 6 .tick]

/-- The condition is not met by `lateWake`, whichever way it is read. -/
theorem not_lost_iff_lateWake :
    Always (step false) (fun j => ¬Lost false j) (start (.init : Kernel 2 Bool Unit)) lateWake ↔
      Along (step false) (StepOk false) (start (.init : Kernel 2 Bool Unit)) lateWake :=
  not_lost_iff (fresh_init false) lateWake

/-- The completion finds no waker, and the waiter then stores one that nobody
wakes. -/
theorem completion_lost : ∃ j : Join 2 Bool Unit,
    exec (step false) (start .init) lateWake = some j ∧ Lost false j ∧
      ¬Always (step false) (fun j => ¬Lost false j) (start (.init : Kernel 2 Bool Unit)) lateWake := by
  have hobs : ((exec (step false) (start (.init : Kernel 2 Bool Unit)) lateWake).map fun j =>
      ((j.kernel.shared.tasks false).state.spawned,
        (j.kernel.shared.tasks false).join.result.isSome, j.handle)) =
      some (false, true, .idle (.pending true false)) := by decide +kernel
  obtain ⟨j, hexec, hobs⟩ := Option.map_eq_some_iff.mp hobs
  obtain ⟨hdone, hobs⟩ := Prod.mk.inj hobs
  obtain ⟨hout, hhandle⟩ := Prod.mk.inj hobs
  have hlost : Lost false j := ⟨hdone, hout, true, hhandle⟩
  exact ⟨j, hexec, hlost, fun halways => halways.of_exec hexec hlost⟩

end Join
end RtAsync

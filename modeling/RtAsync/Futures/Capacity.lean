/-
# How many tasks the queues have room for

`Mutex<T, N>` and `TIMER_QUEUE` keep their waiters in vectors of fixed
capacity and panic where one is full. A mutex is held while somebody waits, so
`N` waiters are `N + 1` users: the futures that have not got the lock and the
guards. A delay has one entry at a time, which goes when it does, so `N`
entries are `N` delays.

Key definitions: `Mutex.users`, `Mutex.Within`, `Timers.alive`,
`Timers.Within`.
Key theorems: `Mutex.Next.users_le`, `Mutex.Waits.length_le`,
`Mutex.users_fit_iff`, `Timers.Next.alive_le`, `Timers.Ledger.length_le`,
`Timers.delays_fit_iff`.
-/
import RtAsync.Futures.DelayWakes
import RtAsync.Futures.Mutex
import RtAsync.Lib.Population

namespace RtAsync

open Function (update update_self update_of_ne)
open Population
open Transition (Steps)

variable {N k : ℕ} {A W : Type}

/-! ### The users of a mutex -/

namespace Mutex

/-- Who needs the mutex: the lock futures that have not got it, and the guards
that have not been dropped. -/
noncomputable def users (m : Mutex N A W) : ℕ∞ :=
  population (fun f => f.last ≠ .ready) m.futures + (m.guards + m.leaked : ℕ)

/-- A user comes only where fewer than `k` are there, and no future is polled
after `Ready`. -/
def Within (k : ℕ) (m : Mutex N A W) (ev : MutexEvent A W) : Prop :=
  m.PollOk ev ∧ ∀ a, ev = .lock a → m.users < k

section Users

variable [DecidableEq A] [DecidableEq W] {m m' : Mutex N A W} {ev : MutexEvent A W}

omit [DecidableEq A] in
/-- A wake does not make a future ready, or unready. -/
theorem population_wakeByRef (waker : Option W) (futures : A → Option (LockFuture W)) :
    population (fun f => f.last ≠ .ready) (wakeByRef waker futures) ≤
      population (fun f => f.last ≠ .ready) futures := by
  refine population_mono fun a f hf hr => ?_
  cases waker with
  | none => exact ⟨f, hf, hr⟩
  | some w =>
    obtain ⟨g, hg, rfl⟩ := Option.map_eq_some_iff.mp hf
    refine ⟨g, hg, fun hready => hr ?_⟩
    show g.last.wake w = .ready
    rw [hready]
    rfl

/-- Users come with `lock` only: with the lock, a future turns into a guard. -/
theorem Next.users_le (hn : Next m ev m') (hok : m.PollOk ev) :
    m'.users ≤ m.users ∨ (∃ a, ev = .lock a) ∧ m'.users ≤ m.users + 1 := by
  unfold users
  cases hn with
  | @lock a _ =>
    refine Or.inr ⟨⟨a, rfl⟩, ?_⟩
    rw [add_right_comm]
    exact add_le_add_left (population_update_le_add_one _) _
  | @acquire a w f f' ws hf _ _ =>
    have hone := population_update_add_one (p := fun f : LockFuture W => f.last ≠ .ready)
      (o := some ⟨f', .ready⟩) hf (hok f hf) (by simp)
    refine Or.inl (le_of_eq ?_)
    rw [← hone]
    push_cast
    ac_rfl
  | enqueue hf _ _ _ =>
    exact Or.inl (add_le_add_left (population_update_le fun _ _ _ => ⟨_, hf, hok _ hf⟩) _)
  | repoll hf _ _ =>
    exact Or.inl (add_le_add_left (population_update_le fun _ _ _ => ⟨_, hf, hok _ hf⟩) _)
  | dropFuture hf _ =>
    exact Or.inl (add_le_add_left (population_update_le fun _ ho => by cases ho) _)
  | @release guards hg _ =>
    refine Or.inl (add_le_add_right (Nat.cast_le.mpr ?_) _)
    show guards + m.leaked ≤ m.guards + m.leaked
    omega
  | @wakeFirst guards a f ws hg _ _ =>
    refine Or.inl (add_le_add (population_wakeByRef _ _) (Nat.cast_le.mpr ?_))
    show guards + m.leaked ≤ m.guards + m.leaked
    omega
  | @forget guards hg =>
    refine Or.inl (add_le_add_right (Nat.cast_le.mpr ?_) _)
    show guards + (m.leaked + 1) ≤ m.guards + m.leaked
    omega

/-- At most `k` users, in every run. -/
theorem users_le_of_steps (h : Steps step (Within k) (init : Mutex N A W) m) : m.users ≤ k := by
  refine h.invariant (I := fun m => m.users ≤ (k : ℕ∞)) (fun m ev m' hk hok hs => ?_) ?_
  · rcases (step_next hs).users_le hok.1 with hle | ⟨⟨a, rfl⟩, hle⟩
    · exact hle.trans hk
    · exact hle.trans (Order.add_one_le_of_lt (hok.2 a rfl))
  · show population _ (fun _ => none) + ((0 + 0 : ℕ) : ℕ∞) ≤ k
    simp [population_none]

/-- What it takes for a poll to panic. -/
theorem poll_eq_none {a : A} {w : W} {f : LockFuture W} (hf : m.futures a = some f) :
    step m (.poll a w) = none ↔
      m.inner.locked = true ∧ f.queued = false ∧ m.inner.waiters.toList.length = N := by
  rw [← BoundedVec.push_eq_none (a := a)]
  cases hl : m.inner.locked <;> cases hq : f.queued <;>
    simp [step, hf, MutexLockFuture.poll, hl, hq]

omit [DecidableEq A] [DecidableEq W] in
/-- The waiters are users, and so is whoever has the lock. -/
theorem Waits.length_le (hw : m.Waits) (hex : m.Exclusive) (hl : m.inner.locked = true) {a : A}
    {f : LockFuture W} (hf : m.futures a = some f) (hq : f.queued = false) (hr : f.last ≠ .ready) :
    ((m.inner.waiters.toList.length + 2 : ℕ) : ℕ∞) ≤ m.users := by
  have ha : a ∉ m.inner.waiters.toList := by
    intro ha
    obtain ⟨g, _, _, hg, hqg, _⟩ := hw.waiting a ha
    rw [Option.some.inj (hf.symm.trans hg), hqg] at hq
    cases hq
  have hone : m.guards + m.leaked = 1 := by
    rw [hex, hl]
    rfl
  have hlen : ((a :: m.inner.waiters.toList).length : ℕ∞) ≤
      population (fun f => f.last ≠ .ready) m.futures := by
    refine length_le_population (List.nodup_cons.mpr ⟨ha, hw.nodup⟩) fun b hb => ?_
    rcases List.mem_cons.mp hb with rfl | hb
    · exact ⟨f, hf, hr⟩
    · obtain ⟨g, w, woken, hg, _, _, hlast⟩ := hw.waiting b hb
      exact ⟨g, hg, by simp [hlast]⟩
  unfold users
  rw [hone]
  exact add_le_add_left hlen 1

end Users

/-! ### A full mutex -/

section Full

variable [DecidableEq W]

/-- `j` futures wait behind a guard. -/
structure Queued (m : Mutex N ℕ W) (j : ℕ) : Prop where
  locked : m.inner.locked = true
  length : m.inner.waiters.toList.length = j
  guards : m.guards + m.leaked = 1
  lt : ∀ a f, m.futures a = some f → a < j

/-- The first user has the lock. -/
theorem exists_guard (w : W) (hk : 1 ≤ k) : ∃ m : Mutex N ℕ W,
    Steps step (Within k) init m ∧ m.Queued 0 := by
  have hlock : Within k (init : Mutex N ℕ W) (.lock 0) := by
    refine ⟨trivial, fun a _ => ?_⟩
    show population _ (fun _ => none) + ((0 + 0 : ℕ) : ℕ∞) < k
    rw [population_none]
    exact Nat.cast_lt.mpr hk
  refine ⟨_, (((Steps.refl _).tail hlock rfl).tail (e := .poll 0 w) ⟨?_, ?_⟩ rfl).tail
    (e := .dropFuture 0) ⟨trivial, ?_⟩ rfl, rfl, rfl, rfl, ?_⟩
  · rintro f ⟨⟩ ⟨⟩
  · rintro a ⟨⟩
  · rintro a ⟨⟩
  · intro a f hf
    by_cases ha : a = 0
    · simp [ha, init] at hf
    · simp [ha, init] at hf

omit [DecidableEq W] in
theorem Queued.free {m : Mutex N ℕ W} {j : ℕ} (h : m.Queued j) : m.futures j = none := by
  cases hf : m.futures j with
  | none => rfl
  | some f => exact absurd (h.lt j f hf) (Nat.lt_irrefl j)

omit [DecidableEq W] in
theorem Queued.lt_succ {m : Mutex N ℕ W} {j : ℕ} (h : m.Queued j) (o : Option (LockFuture W)) :
    ∀ a f, update m.futures j o a = some f → a < j + 1 := by
  intro a f hf
  by_cases haj : a = j
  · exact haj ▸ Nat.lt_succ_self j
  · rw [update_of_ne haj] at hf
    exact Nat.lt_succ_of_lt (h.lt a f hf)

/-- One more user, who has not polled yet. -/
def joined (m : Mutex N ℕ W) (j : ℕ) : Mutex N ℕ W :=
  { m with futures := update m.futures j (some ⟨.new, .unpolled⟩) }

omit [DecidableEq W] in
theorem joined_self (m : Mutex N ℕ W) (j : ℕ) : (m.joined j).futures j = some ⟨.new, .unpolled⟩ :=
  update_self ..

theorem Queued.joined {m : Mutex N ℕ W} {j : ℕ} (h : m.Queued j)
    (hm : Steps step (Within k) init m) (hk : j + 1 < k) :
    Steps step (Within k) init (m.joined j) := by
  refine hm.tail (e := .lock j) ⟨trivial, ?_⟩ (by rw [step, h.free, Mutex.joined])
  rintro a ⟨⟩
  refine lt_of_le_of_lt (b := ((j + 1 : ℕ) : ℕ∞)) ?_ (Nat.cast_lt.mpr hk)
  unfold users
  rw [h.guards]
  exact add_le_add_left (population_le_of_lt h.lt) 1

theorem Queued.poll {m m' : Mutex N ℕ W} {j : ℕ} {w : W} (h : m.Queued j)
    (hs : step (m.joined j) (.poll j w) = some m') : m'.Queued (j + 1) := by
  cases step_next hs with
  | acquire _ hl _ =>
    have hlocked : m.inner.locked = false := hl
    rw [h.locked] at hlocked
    cases hlocked
  | enqueue _ _ _ hws =>
    refine ⟨rfl, ?_, h.guards, fun a f hf => ?_⟩
    · show _ = j + 1
      rw [hws, List.length_append]
      exact congrArg (· + 1) h.length
    · have hfut : update (update m.futures j (some ⟨.new, .unpolled⟩)) j _ a = some f := hf
      rw [Function.update_idem] at hfut
      exact h.lt_succ _ a f hfut
  | repoll hf _ hq =>
    rw [joined_self] at hf
    obtain rfl := Option.some.inj hf
    cases hq

/-- The users that a mutex has room for. -/
theorem exists_queued (w : W) : ∀ j ≤ N, j + 1 ≤ k → ∃ m : Mutex N ℕ W,
    Steps step (Within k) init m ∧ m.Queued j
  | 0, _, hk => exists_guard w hk
  | j + 1, hj, hk => by
    obtain ⟨m, hm, h⟩ := exists_queued w j (Nat.le_of_succ_le hj) (Nat.le_of_succ_le hk)
    obtain ⟨m', hs⟩ := Option.ne_none_iff_exists'.mp fun hno => by
      obtain ⟨-, -, hfull⟩ := (poll_eq_none (w := w) (m.joined_self j)).mp hno
      exact absurd (h.length.symm.trans hfull) (Nat.ne_of_lt hj)
    have hpoll : Within k (m.joined j) (.poll j w) := by
      refine ⟨fun f hf hready => ?_, fun a ha => by cases ha⟩
      rw [Option.mem_def, joined_self] at hf
      obtain rfl := Option.some.inj hf
      cases hready
    exact ⟨m', (h.joined hm hk).tail hpoll hs, h.poll hs⟩

/-- **The room in a mutex.** No poll of a future that has not got the lock
panics, in any run with at most `k` users at a time, exactly if `k` is at most
`N + 1`. -/
theorem users_fit_iff [Inhabited W] (N k : ℕ) :
    (∀ m : Mutex N ℕ W, Steps step (Within k) init m → ∀ a w f, m.futures a = some f →
      f.last ≠ .ready → step m (.poll a w) ≠ none) ↔ k ≤ N + 1 := by
  constructor
  · intro hall
    by_contra hlt
    obtain ⟨m, hm, h⟩ := exists_queued (k := k) (N := N) (default : W) N (Nat.le_refl N) (by omega)
    refine hall _ (h.joined hm (by omega)) N default ⟨.new, .unpolled⟩ (m.joined_self N) ?_ ?_
    · rintro ⟨⟩
    · exact (poll_eq_none (m.joined_self N)).mpr ⟨h.locked, rfl, h.length⟩
  · intro hk m hm a w f hf hr hno
    have hreach := hm.mono fun _ _ _ => trivial
    obtain ⟨hl, hq, hfull⟩ := (poll_eq_none hf).mp hno
    have hle := (waits_of_reach hreach).length_le (exclusive_of_reach hreach) hl hf hq hr
    rw [hfull] at hle
    have hlt : N + 2 ≤ k := Nat.cast_le.mp (hle.trans (users_le_of_steps hm))
    omega

end Full
end Mutex

/-! ### The delays that are alive -/

namespace Timers

noncomputable def alive (t : Timers N A W) : ℕ∞ := population (fun _ => True) t.delays

/-- A delay comes only where fewer than `k` are alive, and none is dropped
with `registered` clear while its entry is queued. -/
def Within (k : ℕ) (t : Timers N A W) (ev : TimersEvent A W) : Prop :=
  t.DropOk ev ∧ ∀ a deadline, ev = .after a deadline → t.alive < k

theorem within_tick (t : Timers N A W) : Within k t .tick :=
  ⟨trivial, fun _ _ hev => by cases hev⟩

theorem within_poll (t : Timers N A W) (a : A) (w : W) : Within k t (.poll a w) :=
  ⟨trivial, fun _ _ hev => by cases hev⟩

section Alive

variable [DecidableEq A] {t t' : Timers N A W} {ev : TimersEvent A W}

theorem alive_setDelay {a : A} {d d' : TimerDelay W} (hd : t.delays a = some d) :
    (t.setDelay a d').alive ≤ t.alive := population_update_le fun _ _ _ => ⟨d, hd, trivial⟩

/-- Delays come with `after` only. -/
theorem Next.alive_le (hn : Next t ev t') :
    t'.alive ≤ t.alive ∨ (∃ a deadline, ev = .after a deadline) ∧ t'.alive ≤ t.alive + 1 := by
  cases hn with
  | @after a deadline _ =>
    exact Or.inr ⟨⟨a, deadline, rfl⟩, population_update_le_add_one _⟩
  | expire _ hd _ _ => exact Or.inl (alive_setDelay hd)
  | storeWaker _ hd _ => exact Or.inl (alive_setDelay hd)
  | mark _ hd _ => exact Or.inl (alive_setDelay hd)
  | drop _ _ => exact Or.inl (population_update_le fun _ ho => by cases ho)
  | isr =>
    obtain ⟨compare, heq⟩ := t.handleTimerIsr_eq
    rw [heq]
    exact Or.inl (le_refl _)
  | _ => exact Or.inl (le_refl _)

/-- At most `k` delays, in every run. -/
theorem alive_le_of_steps (h : Steps step (Within k) (init : Timers N A W) t) : t.alive ≤ k := by
  refine h.invariant (I := fun t => t.alive ≤ (k : ℕ∞)) (fun t ev t' hk hok hs => ?_) ?_
  · rcases (step_next hs).alive_le with hle | ⟨⟨a, deadline, rfl⟩, hle⟩
    · exact hle.trans hk
    · exact hle.trans (Order.add_one_le_of_lt (hok.2 a deadline rfl))
  · show population _ (fun _ => none) ≤ (k : ℕ∞)
    simp [population_none]

/-- A delay is not dropped inside its poll. -/
def PollsLive (t : Timers N A W) : Prop := ∀ f ∈ t.polls, (t.delays f.addr).isSome

theorem isSome_setDelay {a b : A} (hb : (t.delays b).isSome) (d : TimerDelay W) :
    ((t.setDelay a d).delays b).isSome := by
  unfold setDelay
  by_cases hba : b = a
  · simp [hba]
  · simpa [hba] using hb

omit [DecidableEq A] in
/-- An access of the innermost poll. -/
theorem PollsLive.tick (h : t.PollsLive) (gs : List (DelayPoll A W)) {f : DelayPoll A W}
    {fs : List (DelayPoll A W)} (hp : t.polls = f :: fs) (hpolls : t'.polls = gs ++ fs) (hgs : ∀ g ∈ gs, g.addr = f.addr)
    (hd : ∀ b, (t.delays b).isSome → (t'.delays b).isSome) : t'.PollsLive := by
  intro g hg
  rw [hpolls] at hg
  rcases List.mem_append.mp hg with hg | hg
  · rw [hgs g hg]
    exact hd _ (h f (by simp [hp]))
  · exact hd _ (h g (by simp [hp, hg]))

theorem PollsLive.next (h : t.PollsLive) (hn : Next t ev t') : t'.PollsLive := by
  cases hn with
  | after => exact fun g hg => isSome_setDelay (h g hg) _
  | advance => exact h
  | poll hlive _ => exact List.forall_mem_cons.mpr ⟨hlive, h⟩
  | expire hp => exact h.tick [] hp rfl (by simp) fun b hb => isSome_setDelay hb _
  | skip hp => exact h.tick [] hp rfl (by simp) fun b hb => hb
  | register hp => exact h.tick [_] hp rfl (by simp) fun b hb => hb
  | storeWaker hp => exact h.tick [_] hp rfl (by simp) fun b hb => isSome_setDelay hb _
  | schedule hp => exact h.tick [_] hp rfl (by simp) fun b hb => hb
  | program hp => exact h.tick [_] hp rfl (by simp) fun b hb => hb
  | mark hp => exact h.tick [] hp rfl (by simp) fun b hb => isSome_setDelay hb _
  | @drop a _ _ hfree =>
    intro g hg
    have hne : g.addr ≠ a := fun ha => hfree (ha ▸ List.mem_map_of_mem hg)
    show (update t.delays a none g.addr).isSome
    rw [update_of_ne hne]
    exact h g hg
  | isr =>
    obtain ⟨compare, heq⟩ := t.handleTimerIsr_eq
    rw [heq]
    exact h

/-- What it takes for an access of a poll to panic. -/
theorem tick_eq_none {f : DelayPoll A W} {fs : List (DelayPoll A W)} {d : TimerDelay W}
    (hp : t.polls = f :: fs) (hd : t.delays f.addr = some d) :
    step t .tick = none ↔ f.pc = .schedule ∧ t.queue.entries.length = N := by
  have htick : step t .tick = t.tickStep f fs d := by simp [step, hp, hd]
  rw [htick]
  unfold tickStep
  cases f.pc with
  | check =>
    simp only [reduceCtorEq, false_and, iff_false]
    split
    · exact Option.some_ne_none _
    · split <;> exact Option.some_ne_none _
  | schedule =>
    rw [Option.map_eq_none_iff, TimerQueue.schedule]
    by_cases hlen : t.queue.entries.length = N
    · simp [TimerQueue.trySchedule_full hlen, hlen]
    · obtain ⟨q, earliest, htry, -, -⟩ :=
        TimerQueue.trySchedule_room hlen d.deadline .wakeTrampoline f.addr
      simp [htry, hlen]
  | _ => simp

omit [DecidableEq A] in
/-- The entries are of delays that are alive, and so is the one whose entry is
to come. -/
theorem Ledger.length_le (h : t.Ledger) {f : DelayPoll A W} (hf : f ∈ t.polls)
    (hpc : f.pc = .schedule) (hlive : (t.delays f.addr).isSome) :
    ((t.queue.entries.length + 1 : ℕ) : ℕ∞) ≤ t.alive := by
  have hnone := h.fresh f hf (Or.inr hpc)
  have hlen : ((f.addr :: t.queue.entries.map Entry.data).length : ℕ∞) ≤ t.alive := by
    refine length_le_population (List.nodup_cons.mpr ⟨?_, h.nodup⟩) fun b hb => ?_
    · intro hin
      obtain ⟨e, he, hea⟩ := List.mem_map.mp hin
      exact hnone e he hea
    · rcases List.mem_cons.mp hb with rfl | hb
      · exact (Option.isSome_iff_exists.mp hlive).imp fun d hd => ⟨hd, trivial⟩
      · obtain ⟨e, he, rfl⟩ := List.mem_map.mp hb
        exact (Option.isSome_iff_exists.mp (h.live e he)).imp fun d hd => ⟨hd, trivial⟩
  rwa [List.length_cons, List.length_map] at hlen

end Alive

/-! ### A full timer queue -/

section Full

/-- `j` delays are registered. -/
structure Registered (t : Timers N ℕ W) (j : ℕ) : Prop where
  polls : t.polls = []
  clock : t.clock = 0
  length : t.queue.entries.length = j
  lt : ∀ a d, t.delays a = some d → a < j

theorem Registered.free {t : Timers N ℕ W} {j : ℕ} (h : t.Registered j) : t.delays j = none := by
  cases hd : t.delays j with
  | none => rfl
  | some d => exact absurd (h.lt j d hd) (Nat.lt_irrefl j)

/-- One more delay, in its first poll, before `TIMER_QUEUE.schedule`. -/
def joined (t : Timers N ℕ W) (j : ℕ) (w : W) : Timers N ℕ W :=
  { t.setDelay j ⟨1, false, some w⟩ with polls := [⟨j, w, .schedule⟩] }

theorem Registered.joined {t : Timers N ℕ W} {j : ℕ} (h : t.Registered j)
    (ht : Steps step (Within k) init t) (hk : j < k) (w : W) :
    Steps step (Within k) init (t.joined j w) := by
  have hafter : step t (.after j 1) = some (t.setDelay j ⟨1, false, none⟩) := by
    simp [step, h.free]
  have hpoll : step (t.setDelay j ⟨1, false, none⟩) (.poll j w) =
      some { t.setDelay j ⟨1, false, none⟩ with polls := [⟨j, w, .check⟩] } := by
    simp [step, setDelay, h.polls]
  have hcheck : step { t.setDelay j ⟨1, false, none⟩ with polls := [⟨j, w, .check⟩] } .tick =
      some { t.setDelay j ⟨1, false, none⟩ with polls := [⟨j, w, .storeWaker⟩] } := by
    simp [step, tickStep, setDelay, h.clock]
  have hstore : step { t.setDelay j ⟨1, false, none⟩ with polls := [⟨j, w, .storeWaker⟩] } .tick =
      some (t.joined j w) := by
    simp [step, tickStep, setDelay, Timers.joined]
  have hfew : Within k t (.after j 1) :=
    ⟨trivial, fun _ _ _ => lt_of_le_of_lt (population_le_of_lt h.lt) (Nat.cast_lt.mpr hk)⟩
  exact (((ht.tail hfew hafter).tail (within_poll _ j w) hpoll).tail (within_tick _) hcheck).tail
    (within_tick _) hstore

/-- With room, the delay is registered. -/
theorem Registered.register {t : Timers N ℕ W} {j : ℕ} (h : t.Registered j) {w : W}
    (ht : Steps step (Within k) init (t.joined j w)) (hj : j < N) :
    ∃ t' : Timers N ℕ W, Steps step (Within k) init t' ∧ t'.Registered (j + 1) := by
  have hlen : t.queue.entries.length ≠ N := by
    rw [h.length]
    exact Nat.ne_of_lt hj
  obtain ⟨queue, earliest, htry, happ, -⟩ :=
    TimerQueue.trySchedule_room hlen 1 Callback.wakeTrampoline j
  have hschedule : step (t.joined j w) .tick = some { t.joined j w with
      queue, polls := [⟨j, w, if earliest then .program else .mark⟩] } := by
    simp [step, tickStep, setDelay, Timers.joined, TimerQueue.schedule, htry]
  have hprogram : ∃ compare, Steps step (Within k) init
      { t.joined j w with queue, compare, polls := [⟨j, w, .mark⟩] } := by
    have hnext := ht.tail (within_tick _) hschedule
    cases earliest with
    | false => exact ⟨_, hnext⟩
    | true =>
      refine ⟨some 1, hnext.tail (within_tick _) ?_⟩
      simp [step, tickStep, setDelay, Timers.joined]
  obtain ⟨compare, hmark⟩ := hprogram
  refine ⟨{ t with
    queue, compare, delays := update t.delays j (some ⟨1, true, some w⟩), polls := [] }, ?_, rfl,
    h.clock, ?_, fun a d hd => ?_⟩
  · exact hmark.tail (within_tick _) (by simp [step, tickStep, setDelay, Timers.joined])
  · show queue.entries.length = j + 1
    rw [happ, List.length_append, h.length]
    rfl
  · by_cases haj : a = j
    · exact haj ▸ Nat.lt_succ_self j
    · have hd' : update t.delays j _ a = some d := hd
      rw [update_of_ne haj] at hd'
      exact Nat.lt_succ_of_lt (h.lt a d hd')

theorem exists_registered (w : W) : ∀ j ≤ N, j ≤ k → ∃ t : Timers N ℕ W,
    Steps step (Within k) init t ∧ t.Registered j
  | 0, _, _ => ⟨init, .refl _, rfl, rfl, rfl, fun _ _ hd => by cases hd⟩
  | j + 1, hj, hk => by
    obtain ⟨t, ht, h⟩ := exists_registered w j (Nat.le_of_succ_le hj) (Nat.le_of_succ_le hk)
    exact h.register (h.joined ht hk w) hj

/-- **The room in the timer queue.** No poll of a delay panics, in any run with
at most `k` delays at a time, exactly if `k` is at most `N`. -/
theorem delays_fit_iff [Inhabited W] (N k : ℕ) :
    (∀ t : Timers N ℕ W, Steps step (Within k) init t → t.polls ≠ [] → step t .tick ≠ none) ↔
      k ≤ N := by
  constructor
  · intro hall
    by_contra hlt
    obtain ⟨t, ht, h⟩ := exists_registered (k := k) (N := N) (default : W) N (Nat.le_refl N)
      (by omega)
    have hd : (t.joined N default).delays N = some ⟨1, false, some default⟩ := update_self ..
    refine hall _ (h.joined ht (by omega) default) (List.cons_ne_nil _ _) ?_
    exact (tick_eq_none rfl hd).mpr ⟨rfl, h.length⟩
  · intro hk t ht hp hno
    obtain ⟨f, fs, hf⟩ := List.exists_cons_of_ne_nil hp
    have hin : f ∈ t.polls := by simp [hf]
    have hledger : t.Ledger :=
      ht.invariant (fun _ _ _ hl hok hs => hl.next hok.1 (step_next hs)) ledger_init
    have hlive : t.PollsLive :=
      ht.invariant (fun _ _ _ hl _ hs => hl.next (step_next hs)) fun f hf => by cases hf
    obtain ⟨d, hd⟩ := Option.isSome_iff_exists.mp (hlive f hin)
    obtain ⟨hpc, hfull⟩ := (tick_eq_none hf hd).mp hno
    have hle := hledger.length_le hin hpc (hlive f hin)
    rw [hfull] at hle
    have hlt : N + 1 ≤ k := Nat.cast_le.mp (hle.trans (alive_le_of_steps ht))
    omega

end Full
end Timers
end RtAsync

/-
# The order in which the mutex is acquired

Beside the mutex, when each lock future was polled first, joined the waiter
queue and acquired the mutex. `MutexGuard::drop` pops the first waiter and
frees the mutex; the popped future acquires it when it is polled next, and so
does any other future that is polled before it. `LockOrder.TurnOk` says that none
is, and `LockOrder.fifo_iff` that this is exactly when the order of the queue
is the order of the acquisitions.

No future is cancelled: it is dropped before its first poll or when it has
returned `Ready`, and it is not polled again after `Ready`.

Key definitions: `Stamps`, `Stamps.Fifo`, `LockOrder`, `LockOrder.step`,
`Mutex.HasTurn`, `LockOrder.TurnOk`.
Key theorems: `LockOrder.step_next`, `LockOrder.Inv.next`, `LockOrder.fifo_iff`,
`LockOrder.overtaken`.
-/
import RtAsync.Futures.Mutex

namespace RtAsync

open Function (update update_self update_of_ne)
open Transition (Along Always always_iff_along exec)

variable {N : ℕ} {A W : Type}

/-! ### Stamps -/

/-- When a lock future was polled first, joined the queue, and acquired the
mutex. -/
structure Stamps where
  firstPoll : Option ℕ
  joined : Option ℕ
  acquired : Option ℕ
  deriving DecidableEq

namespace Stamps

def new : Stamps := ⟨none, none, none⟩

/-- All of it happened before `now`. -/
def Below (now : ℕ) (st : Stamps) : Prop :=
  (∀ i ∈ st.firstPoll, i < now) ∧ (∀ i ∈ st.joined, i < now) ∧ ∀ i ∈ st.acquired, i < now

/-- `f` joined the queue before `g` joined it or was polled. -/
def Ahead (f g : Stamps) : Prop :=
  ∃ i j, f.joined = some i ∧ (g.joined = some j ∨ g.firstPoll = some j) ∧ i < j

/-- A future acquires the mutex after those that are ahead of it. -/
def Fifo (stamps : A → Stamps) : Prop :=
  ∀ f g k, (stamps f).Ahead (stamps g) → (stamps g).acquired = some k →
    ∃ l, (stamps f).acquired = some l ∧ l < k

variable [DecidableEq A] {stamps : A → Stamps} {a : A} {now : ℕ}

theorem Fifo.reset (h : Fifo stamps) : Fifo (update stamps a new) := by
  intro f g k hahead hk
  by_cases hg : g = a
  · rw [hg, update_self] at hk
    cases hk
  · by_cases hf : f = a
    · obtain ⟨i, j, hi, -, -⟩ := hahead
      rw [hf, update_self] at hi
      cases hi
    · rw [update_of_ne hf, update_of_ne hg] at hahead
      rw [update_of_ne hg] at hk
      rw [update_of_ne hf]
      exact h f g k hahead hk

/-- Who joins now is behind everybody. -/
theorem Fifo.join (h : Fifo stamps) (hb : ∀ b, (stamps b).Below now) :
    Fifo (update stamps a ⟨some now, some now, none⟩) := by
  intro f g k hahead hk
  by_cases hg : g = a
  · rw [hg, update_self] at hk
    cases hk
  · by_cases hf : f = a
    · obtain ⟨i, j, hi, hj, hlt⟩ := hahead
      rw [hf, update_self] at hi
      rw [update_of_ne hg] at hj
      obtain rfl : now = i := Option.some.inj hi
      have hjnow : j < now := hj.elim (fun hj => (hb g).2.1 j hj) (fun hj => (hb g).1 j hj)
      omega
    · rw [update_of_ne hf, update_of_ne hg] at hahead
      rw [update_of_ne hg] at hk
      rw [update_of_ne hf]
      exact h f g k hahead hk

/-- Who acquires now must have nobody ahead that waits. -/
theorem Fifo.acquire_iff (h : Fifo stamps) (hb : ∀ b, (stamps b).Below now) {st : Stamps}
    (hjoined : st.joined = (stamps a).joined) (hself : ¬st.Ahead st)
    (hno : (stamps a).acquired = none) (hacq : st.acquired = some now) :
    Fifo (update stamps a st) ↔
      ∀ f, f ≠ a → (stamps f).Ahead st → (stamps f).acquired ≠ none := by
  constructor
  · intro h' f hf hahead hnone
    obtain ⟨l, hl, -⟩ := h' f a now (by rwa [update_self, update_of_ne hf])
      (by rw [update_self, hacq])
    rw [update_of_ne hf, hnone] at hl
    cases hl
  · intro hahead f g k hfg hk
    by_cases hg : g = a
    · subst hg
      rw [update_self, hacq] at hk
      obtain rfl : now = k := Option.some.inj hk
      rw [update_self] at hfg
      by_cases hf : f = g
      · rw [hf, update_self] at hfg
        exact absurd hfg hself
      · rw [update_of_ne hf] at hfg ⊢
        obtain ⟨l, hl⟩ := Option.ne_none_iff_exists'.mp (hahead f hf hfg)
        exact ⟨l, hl, (hb f).2.2 l hl⟩
    · rw [update_of_ne hg] at hfg hk
      by_cases hf : f = a
      · -- `a` was ahead of one that has acquired the mutex
        obtain ⟨i, j, hi, hj, hlt⟩ := hfg
        rw [hf, update_self, hjoined] at hi
        obtain ⟨l, hl, -⟩ := h a g k ⟨i, j, hi, hj, hlt⟩ hk
        rw [hno] at hl
        cases hl
      · rw [update_of_ne hf] at hfg ⊢
        exact h f g k hfg hk

end Stamps

/-! ### The history -/

/-- The mutex, the number of steps so far, and the stamps of the futures that
are alive. -/
structure LockOrder (N : ℕ) (A W : Type) where
  mutex : Mutex N A W
  now : ℕ
  stamps : A → Stamps

/-- No future is cancelled, and none is polled after `Ready`. -/
def Mutex.Allowed (m : Mutex N A W) : MutexEvent A W → Bool
  | .poll a _ => (m.futures a).all fun f => !f.last.isReady
  | .dropFuture a => (m.futures a).all fun f => !f.last.isPending
  | _ => true

/-- A guard has popped the future at `a`, which has not acquired the mutex
since. -/
def Mutex.HasTurn (m : Mutex N A W) (a : A) : Prop :=
  Pending m.futures a ∧ a ∉ m.inner.waiters.toList

namespace LockOrder

def init : LockOrder N A W := ⟨.init, 0, fun _ => .new⟩

section Step

variable [DecidableEq A] [DecidableEq W]

/-- The stamps after an event that has led to `m'`. -/
def stamp (q : LockOrder N A W) (m' : Mutex N A W) : MutexEvent A W → A → Stamps
  | .lock a => update q.stamps a .new
  | .dropFuture a => update q.stamps a .new
  | .poll a _ =>
    let st := q.stamps a
    update q.stamps a {
      firstPoll := st.firstPoll.or (some q.now)
      joined := if a ∈ m'.inner.waiters.toList ∧ a ∉ q.mutex.inner.waiters.toList
        then some q.now else st.joined
      acquired := if (m'.futures a).any fun f => f.last.isReady then some q.now else st.acquired }
  | _ => q.stamps

def step (q : LockOrder N A W) (ev : MutexEvent A W) : Option (LockOrder N A W) :=
  if q.mutex.Allowed ev then
    (q.mutex.step ev).map fun m => ⟨m, q.now + 1, q.stamp m ev⟩
  else none

theorem step_next {q q' : LockOrder N A W} {ev : MutexEvent A W} (h : step q ev = some q') :
    q.mutex.Allowed ev = true ∧ ∃ m, Mutex.Next q.mutex ev m ∧ q' = ⟨m, q.now + 1, q.stamp m ev⟩ := by
  unfold step at h
  split at h
  · rename_i hal
    obtain ⟨m, hm, rfl⟩ := Option.map_eq_some_iff.mp h
    exact ⟨hal, m, Mutex.step_next hm, rfl⟩
  · cases h

end Step

/-! ### The queue and the stamps -/

/-- What the stamps say of a future, by how its last poll ended. -/
def Fits (now : ℕ) (o : Option (LockFuture W)) (st : Stamps) : Prop :=
  match o with
  | none => st = .new
  | some f => match f.last with
    | .unpolled => f.queued = false ∧ st = .new
    | .pending _ _ => f.queued = true ∧ ∃ i, i < now ∧ st = ⟨some i, some i, none⟩
    | .ready => ∃ i k, i ≤ k ∧ k < now ∧ st.firstPoll = some i ∧ st.acquired = some k ∧
        ∀ j ∈ st.joined, j = i

theorem Fits.below {now : ℕ} {o : Option (LockFuture W)} {st : Stamps} (h : Fits now o st) :
    st.Below now := by
  unfold Fits at h
  split at h
  · rw [h]
    simp [Stamps.Below, Stamps.new]
  · split at h
    · rw [h.2]
      simp [Stamps.Below, Stamps.new]
    · obtain ⟨-, i, hi, rfl⟩ := h
      simpa [Stamps.Below] using hi
    · obtain ⟨i, k, hik, hk, hf, ha, hj⟩ := h
      refine ⟨fun j hj' => ?_, fun j hj' => ?_, fun j hj' => ?_⟩
      · rw [hf] at hj'
        obtain rfl := Option.some.inj hj'
        omega
      · have := hj j hj'
        omega
      · rw [ha] at hj'
        obtain rfl := Option.some.inj hj'
        exact hk

theorem Fits.later {now now' : ℕ} {o : Option (LockFuture W)} {st : Stamps} (h : Fits now o st)
    (hle : now ≤ now') : Fits now' o st := by
  unfold Fits at h ⊢
  cases o with
  | none => exact h
  | some f =>
    revert h
    simp only
    cases f.last with
    | unpolled => exact id
    | pending w woken => exact fun ⟨hq, i, hi, hst⟩ => ⟨hq, i, by omega, hst⟩
    | ready => exact fun ⟨i, k, hik, hk, h⟩ => ⟨i, k, hik, by omega, h⟩

/-- A future that waits has joined when it was polled first. -/
theorem Fits.of_pending {futures : A → Option (LockFuture W)} {a : A} {now : ℕ} {st : Stamps}
    (h : Fits now (futures a) st) (hp : Mutex.Pending futures a) :
    ∃ i, i < now ∧ st = ⟨some i, some i, none⟩ := by
  obtain ⟨f, hf, hp⟩ := hp
  rw [hf] at h
  unfold Fits at h
  cases hl : f.last with
  | pending w woken =>
    simp only [hl] at h
    exact h.2
  | unpolled => simp [hl, LastPoll.isPending] at hp
  | ready => simp [hl, LastPoll.isPending] at hp

/-- Who has joined and not acquired the mutex waits. -/
theorem Fits.pending {futures : A → Option (LockFuture W)} {a : A} {now : ℕ} {st : Stamps}
    (h : Fits now (futures a) st) (hj : st.joined ≠ none) (hno : st.acquired = none) :
    Mutex.Pending futures a := by
  cases hf : futures a with
  | none =>
    rw [hf] at h
    rw [show st = .new from h] at hj
    exact absurd rfl hj
  | some f =>
    rw [hf] at h
    unfold Fits at h
    cases hl : f.last with
    | unpolled =>
      simp only [hl] at h
      rw [h.2] at hj
      exact absurd rfl hj
    | pending w woken => exact ⟨f, hf, by rw [hl]; rfl⟩
    | ready =>
      simp only [hl] at h
      obtain ⟨i, k, -, -, -, hk, -⟩ := h
      rw [hno] at hk
      cases hk

/-- The queue is in the order of the stamps. While nobody has the mutex and
some future waits, one has its turn; it has been longest in the queue, and
nobody has its turn while somebody has the mutex. -/
structure Inv (q : LockOrder N A W) : Prop where
  waits : q.mutex.Waits
  exclusive : q.mutex.Exclusive
  fits : ∀ a, Fits q.now (q.mutex.futures a) (q.stamps a)
  sorted : q.mutex.inner.waiters.toList.Pairwise fun a b => (q.stamps a).Ahead (q.stamps b)
  free : ∀ p, q.mutex.HasTurn p → q.mutex.inner.locked = false
  turn : ∀ p, q.mutex.HasTurn p → ∀ b, Mutex.Pending q.mutex.futures b → b ≠ p →
    (q.stamps p).Ahead (q.stamps b)
  some_turn : q.mutex.inner.locked = false → (∃ b, Mutex.Pending q.mutex.futures b) →
    ∃ p, q.mutex.HasTurn p
  fifo : Stamps.Fifo q.stamps

/-- A poll that finds the mutex free is not ahead of a future whose turn it
is. -/
def TurnOk (q : LockOrder N A W) : MutexEvent A W → Prop
  | .poll a _ => q.mutex.inner.locked = false → ∀ b, b ≠ a → ¬q.mutex.HasTurn b
  | _ => True

namespace Inv

variable {q : LockOrder N A W} {a : A}

theorem pending_of_mem (h : Inv q) {a : A} (ha : a ∈ q.mutex.inner.waiters.toList) :
    Mutex.Pending q.mutex.futures a := by
  obtain ⟨f, w, woken, hf, -, -, hl⟩ := h.waits.waiting a ha
  exact ⟨f, hf, by rw [hl]; rfl⟩

/-- A future that may be polled has not been polled, or waits. -/
theorem polled (h : Inv q) {w : W} {f : LockFuture W} (hal : q.mutex.Allowed (.poll a w) = true)
    (hf : q.mutex.futures a = some f) :
    (f.queued = false ∧ q.stamps a = .new) ∨
    (f.queued = true ∧ Mutex.Pending q.mutex.futures a ∧
      ∃ i, i < q.now ∧ q.stamps a = ⟨some i, some i, none⟩) := by
  have hfit := h.fits a
  rw [hf] at hfit
  unfold Fits at hfit
  cases hl : f.last with
  | unpolled =>
    simp only [hl] at hfit
    exact Or.inl hfit
  | pending v woken =>
    simp only [hl] at hfit
    exact Or.inr ⟨hfit.1, ⟨f, hf, by rw [hl]; rfl⟩, hfit.2⟩
  | ready => simp [Mutex.Allowed, hf, hl, LastPoll.isReady] at hal

variable [DecidableEq A]

/-- Where nobody has the mutex, a future that acquires it overtakes another
exactly when it is the turn of another. -/
theorem overtakes_iff (h : Inv q) {w : W} {f : LockFuture W}
    (hal : q.mutex.Allowed (.poll a w) = true) (hf : q.mutex.futures a = some f)
    (hfree : q.mutex.inner.locked = false) {st : Stamps}
    (hst : st = { q.stamps a with
      firstPoll := (q.stamps a).firstPoll.or (some q.now), acquired := some q.now }) :
    Stamps.Fifo (update q.stamps a st) ↔ ∀ b, b ≠ a → ¬q.mutex.HasTurn b := by
  have hbelow : ∀ b, (q.stamps b).Below q.now := fun b => (h.fits b).below
  have hcase := h.polled hal hf
  have hno : (q.stamps a).acquired = none := by
    rcases hcase with ⟨-, hnew⟩ | ⟨-, -, i, -, hi⟩
    · rw [hnew]
      rfl
    · rw [hi]
  have hself : ¬st.Ahead st := by
    rintro ⟨i, j, hi, hj, hlt⟩
    rcases hcase with ⟨-, hnew⟩ | ⟨-, -, k, -, hk⟩
    · simp [hst, hnew, Stamps.new] at hi
    · simp only [hst, hk, Option.some_or, Option.some.injEq, or_self] at hi hj
      omega
  rw [h.fifo.acquire_iff hbelow (by rw [hst]) hself hno (by rw [hst])]
  constructor
  · intro hahead b hba hb
    obtain ⟨i, hi, hib⟩ := (h.fits b).of_pending hb.1
    refine hahead b hba ?_ (by rw [hib])
    rcases hcase with ⟨-, hnew⟩ | ⟨-, hpa, k, hk, hka⟩
    · exact ⟨i, q.now, by rw [hib], Or.inr (by rw [hst, hnew]; rfl), hi⟩
    · obtain ⟨i', j, hi', hj, hlt⟩ := h.turn b hb a hpa hba.symm
      refine ⟨i', j, hi', ?_, hlt⟩
      rw [hst, hka]
      rw [hka] at hj
      exact hj
  · intro hturn b hba hahead hnone
    have hjoined : (q.stamps b).joined ≠ none := by
      obtain ⟨i, j, hi, -, -⟩ := hahead
      rw [hi]
      simp
    have hpb := (h.fits b).pending hjoined hnone
    obtain ⟨p, hp⟩ := h.some_turn hfree ⟨b, hpb⟩
    have hpa : p = a := by
      by_contra hne
      exact hturn p hne hp
    subst hpa
    -- it is the turn of the future polled, which joined before `b`
    obtain ⟨i, j, hi, hj, hlt⟩ := hahead
    obtain ⟨i', j', hi', hj', hlt'⟩ := h.turn p hp b hpb hba
    obtain ⟨k, -, hk⟩ := (h.fits p).of_pending hp.1
    obtain ⟨l, -, hl⟩ := (h.fits b).of_pending hpb
    simp only [hst, hk, hl, Option.some_or, Option.some.injEq, or_self] at hi hj hi' hj'
    omega

/-- A future that does not wait comes, or goes. -/
theorem reset (h : Inv q) (ha : ¬Mutex.Pending q.mutex.futures a) {o : Option (LockFuture W)}
    (ho : Fits (q.now + 1) o .new) {l : BoundedVec A N}
    (hws : l.toList = q.mutex.inner.waiters.toList)
    (hwaits : Mutex.Waits { q.mutex with
      inner := { q.mutex.inner with waiters := l }, futures := update q.mutex.futures a o }) :
    Inv ⟨{ q.mutex with
      inner := { q.mutex.inner with waiters := l }, futures := update q.mutex.futures a o },
      q.now + 1, update q.stamps a .new⟩ := by
  have ho' : ∀ f ∈ o, f.last.isPending = false := by
    rintro f rfl
    unfold Fits at ho
    cases hl : f.last with
    | pending w woken =>
      simp only [hl, Stamps.new, Stamps.mk.injEq] at ho
      obtain ⟨-, i, -, hi, -⟩ := ho
      cases hi
    | _ => rfl
  have hne : ∀ {b}, Mutex.Pending (update q.mutex.futures a o) b → b ≠ a :=
    fun hb => Mutex.ne_of_pending_update hb ho'
  have hpend : ∀ {b}, Mutex.Pending (update q.mutex.futures a o) b →
      Mutex.Pending q.mutex.futures b := fun hb =>
    (Mutex.pending_update_ne (hne hb) o).mp hb
  have hpend' : ∀ {b}, Mutex.Pending q.mutex.futures b →
      Mutex.Pending (update q.mutex.futures a o) b ∧ b ≠ a := fun {b} hb => by
    have hba : b ≠ a := fun he => ha (he ▸ hb)
    exact ⟨(Mutex.pending_update_ne hba o).mpr hb, hba⟩
  have hstamp : ∀ {b}, Mutex.Pending q.mutex.futures b →
      update q.stamps a Stamps.new b = q.stamps b := fun hb => update_of_ne (hpend' hb).2 ..
  refine ⟨hwaits, h.exclusive, fun b => ?_, ?_, fun p hp => ?_, fun p hp b hb hbp => ?_,
    fun hfree hb => ?_, h.fifo.reset⟩
  · by_cases hb : b = a
    · subst hb
      simpa using ho
    · simp only [update_of_ne hb]
      exact (h.fits b).later (Nat.le_succ _)
  · simp only [hws]
    refine h.sorted.imp_of_mem fun hb hc hbc => ?_
    rw [hstamp (h.pending_of_mem hb), hstamp (h.pending_of_mem hc)]
    exact hbc
  · exact h.free p ⟨hpend hp.1, hws ▸ hp.2⟩
  · have hb' := h.turn p ⟨hpend hp.1, hws ▸ hp.2⟩ b (hpend hb) hbp
    simp only [hstamp (hpend hp.1), hstamp (hpend hb)]
    exact hb'
  · obtain ⟨b, hb⟩ := hb
    obtain ⟨p, hp⟩ := h.some_turn hfree ⟨b, hpend hb⟩
    exact ⟨p, (hpend' hp.1).1, by simpa only [hws] using hp.2⟩

/-- The mutex is acquired by a future before which nobody has its turn. -/
theorem acquire (h : Inv q) {w : W} {f : LockFuture W} {f' : MutexLockFuture W}
    {ws : BoundedVec A N} (hal : q.mutex.Allowed (.poll a w) = true)
    (hok : q.TurnOk (.poll a w)) (hf : q.mutex.futures a = some f)
    (hfree : q.mutex.inner.locked = false)
    (hws : ∀ b, b ∈ ws.toList ↔ b ∈ q.mutex.inner.waiters.toList ∧ b ≠ a)
    (hsub : ws.toList.Sublist q.mutex.inner.waiters.toList) {m : Mutex N A W}
    (hm : m = { q.mutex with
      inner := ⟨true, ws⟩, futures := update q.mutex.futures a (some ⟨f', .ready⟩)
      guards := q.mutex.guards + 1 })
    (hwaits : m.Waits) (hex : m.Exclusive) {st : Stamps}
    (hst : st = { q.stamps a with
      firstPoll := (q.stamps a).firstPoll.or (some q.now), acquired := some q.now }) :
    Inv ⟨m, q.now + 1, update q.stamps a st⟩ := by
  subst hm
  have hpend : ∀ {b}, Mutex.Pending (update q.mutex.futures a (some ⟨f', .ready⟩)) b →
      Mutex.Pending q.mutex.futures b ∧ b ≠ a := fun {b} hb => by
    have hba : b ≠ a := Mutex.ne_of_pending_update hb fun g hg => by
      rw [← Option.some.inj hg]
      rfl
    exact ⟨(Mutex.pending_update_ne hba _).mp hb, hba⟩
  -- nobody else has its turn
  have hturn : ∀ p, ¬(Mutex.Pending (update q.mutex.futures a (some ⟨f', .ready⟩)) p ∧
      p ∉ ws.toList) := by
    rintro p ⟨hp, hmem⟩
    obtain ⟨hp, hpa⟩ := hpend hp
    exact hok hfree p hpa ⟨hp, fun h => hmem ((hws p).mpr ⟨h, hpa⟩)⟩
  refine ⟨hwaits, hex, fun b => ?_, ?_, fun p hp => absurd hp (hturn p),
    fun p hp => absurd hp (hturn p), fun hl => (by cases hl),
    (h.overtakes_iff hal hf hfree hst).mpr (hok hfree)⟩
  · by_cases hb : b = a
    · subst hb
      simp only [update_self]
      rcases h.polled hal hf with ⟨-, hnew⟩ | ⟨-, -, i, hi, hib⟩
      · refine ⟨q.now, q.now, Nat.le_refl _, Nat.lt_succ_self _, ?_, ?_, ?_⟩
        · rw [hst, hnew]
          rfl
        · rw [hst]
        · rw [hst, hnew]
          simp [Stamps.new]
      · refine ⟨i, q.now, hi.le, Nat.lt_succ_self _, ?_, ?_, ?_⟩
        · rw [hst, hib]
          rfl
        · rw [hst]
        · rw [hst, hib]
          simp
    · simp only [update_of_ne hb]
      exact (h.fits b).later (Nat.le_succ _)
  · refine (h.sorted.sublist hsub).imp_of_mem fun hb hc hbc => ?_
    simp only [update_of_ne ((hws _).mp hb).2, update_of_ne ((hws _).mp hc).2]
    exact hbc

/-- A future that was not polled before joins the queue. -/
theorem enqueue (h : Inv q) {w : W} {ws : BoundedVec A N} (ha : ¬Mutex.Pending q.mutex.futures a)
    (hlocked : q.mutex.inner.locked = true)
    (hws : ws.toList = q.mutex.inner.waiters.toList ++ [a]) {m : Mutex N A W}
    (hm : m = { q.mutex with
      inner := ⟨true, ws⟩
      futures := update q.mutex.futures a (some ⟨⟨true, some w⟩, .pending w false⟩) })
    (hwaits : m.Waits) (hex : m.Exclusive) :
    Inv ⟨m, q.now + 1, update q.stamps a ⟨some q.now, some q.now, none⟩⟩ := by
  subst hm
  have hturn : ∀ p, ¬(Mutex.Pending
      (update q.mutex.futures a (some ⟨⟨true, some w⟩, .pending w false⟩)) p ∧ p ∉ ws.toList) := by
    rintro p ⟨hp, hmem⟩
    simp only [hws, List.mem_append, List.mem_singleton, not_or] at hmem
    have hfree := h.free p ⟨(Mutex.pending_update_ne hmem.2 _).mp hp, hmem.1⟩
    rw [hlocked] at hfree
    cases hfree
  have hstamp : ∀ {b}, Mutex.Pending q.mutex.futures b →
      update q.stamps a ⟨some q.now, some q.now, none⟩ b = q.stamps b := fun {b} hb => by
    have hba : b ≠ a := fun he => ha (he ▸ hb)
    exact update_of_ne hba ..
  refine ⟨hwaits, hex, fun b => ?_, ?_, fun p hp => absurd hp (hturn p),
    fun p hp => absurd hp (hturn p), fun hl => (by cases hl),
    h.fifo.join fun b => (h.fits b).below⟩
  · by_cases hb : b = a
    · subst hb
      simp only [update_self]
      exact ⟨rfl, q.now, Nat.lt_succ_self _, rfl⟩
    · simp only [update_of_ne hb]
      exact (h.fits b).later (Nat.le_succ _)
  · simp only [hws, List.pairwise_append, List.pairwise_singleton, List.mem_singleton, true_and]
    refine ⟨h.sorted.imp_of_mem fun hb hc hbc => ?_, ?_⟩
    · rw [hstamp (h.pending_of_mem hb), hstamp (h.pending_of_mem hc)]
      exact hbc
    · rintro b hb _ rfl
      have hpb := h.pending_of_mem hb
      obtain ⟨i, hi, hib⟩ := (h.fits b).of_pending hpb
      rw [hstamp hpb, hib, update_self]
      exact ⟨i, q.now, rfl, Or.inl rfl, hi⟩

omit [DecidableEq A] in
/-- Nothing comes or goes. -/
theorem keep (h : Inv q) {m : Mutex N A W} (hwaits : m.Waits) (hex : m.Exclusive)
    (hinner : m.inner = q.mutex.inner)
    (hpend : ∀ b, Mutex.Pending m.futures b ↔ Mutex.Pending q.mutex.futures b)
    (hfits : ∀ b, Fits (q.now + 1) (m.futures b) (q.stamps b)) :
    Inv ⟨m, q.now + 1, q.stamps⟩ := by
  have hturn : ∀ p, m.HasTurn p ↔ q.mutex.HasTurn p := fun p => by
    unfold Mutex.HasTurn
    rw [hpend, hinner]
  refine ⟨hwaits, hex, hfits, ?_, fun p hp => ?_, fun p hp b hb => ?_, fun hl ⟨b, hb⟩ => ?_, h.fifo⟩
  · simp only [hinner]
    exact h.sorted
  · simp only [hinner]
    exact h.free p ((hturn p).mp hp)
  · exact h.turn p ((hturn p).mp hp) b ((hpend b).mp hb)
  · simp only [hinner] at hl
    obtain ⟨p, hp⟩ := h.some_turn hl ⟨b, (hpend b).mp hb⟩
    exact ⟨p, (hturn p).mpr hp⟩

omit [DecidableEq A] in
/-- A guard goes, and it is the turn of the first waiter. -/
theorem dropGuard (h : Inv q) {m : Mutex N A W} (hwaits : m.Waits) (hex : m.Exclusive)
    (hlocked : q.mutex.inner.locked = true) (hfree : m.inner.locked = false)
    (htail : m.inner.waiters.toList = q.mutex.inner.waiters.toList.tail)
    (hpend : ∀ b, Mutex.Pending m.futures b ↔ Mutex.Pending q.mutex.futures b)
    (hfits : ∀ b, Fits (q.now + 1) (m.futures b) (q.stamps b)) :
    Inv ⟨m, q.now + 1, q.stamps⟩ := by
  -- who waits is in the queue, as nobody has had its turn
  have hmem : ∀ b, Mutex.Pending m.futures b → b ∈ q.mutex.inner.waiters.toList := by
    intro b hb
    by_contra hno
    have hf := h.free b ⟨(hpend b).mp hb, hno⟩
    rw [hlocked] at hf
    cases hf
  have hhead : ∀ p, m.HasTurn p → ∃ l, q.mutex.inner.waiters.toList = p :: l ∧
      m.inner.waiters.toList = l := by
    rintro p ⟨hp, hno⟩
    have hin := hmem p hp
    rw [htail] at hno ⊢
    cases hl : q.mutex.inner.waiters.toList with
    | nil =>
      rw [hl] at hin
      cases hin
    | cons c l =>
      rw [hl] at hin hno
      rcases List.mem_cons.mp hin with rfl | hin
      · exact ⟨l, rfl, rfl⟩
      · exact absurd hin hno
  refine ⟨hwaits, hex, hfits, ?_, fun _ _ => hfree, fun p hp b hb hbp => ?_,
    fun _ ⟨b, hb⟩ => ?_, h.fifo⟩
  · simp only [htail]
    exact h.sorted.sublist (List.tail_sublist _)
  · obtain ⟨l, hl, -⟩ := hhead p hp
    have hsorted := h.sorted
    have hin := hmem b hb
    rw [hl] at hsorted hin
    exact (List.pairwise_cons.mp hsorted).1 b ((List.mem_cons.mp hin).resolve_left hbp)
  · have hin := hmem b hb
    cases hl : q.mutex.inner.waiters.toList with
    | nil =>
      rw [hl] at hin
      cases hin
    | cons p l =>
      have hp : p ∈ q.mutex.inner.waiters.toList := by
        rw [hl]
        exact List.mem_cons_self
      have hnodup := h.waits.nodup
      rw [hl] at hnodup
      refine ⟨p, (hpend p).mpr (h.pending_of_mem hp), ?_⟩
      show p ∉ m.inner.waiters.toList
      rw [htail, hl]
      exact (List.nodup_cons.mp hnodup).1

end Inv

/-! ### The steps -/

theorem Fits.wakeByRef [DecidableEq W] {futures : A → Option (LockFuture W)} {now : ℕ}
    {st : Stamps} {b : A} (h : Fits now (futures b) st) (waker : Option W) :
    Fits now (Mutex.wakeByRef waker futures b) st := by
  cases waker with
  | none => exact h
  | some v =>
    unfold Fits at h ⊢
    cases hf : futures b with
    | none => simpa [Mutex.wakeByRef, hf] using h
    | some f =>
      rw [hf] at h
      simp only [Mutex.wakeByRef, hf, Option.map_some]
      cases hl : f.last with
      | _ => simpa [hl, LastPoll.wake] using h

variable [DecidableEq A]

theorem stamp_acquire {q : LockOrder N A W} {m : Mutex N A W} {a : A} {w : W} {f : LockFuture W}
    (ha : a ∉ m.inner.waiters.toList) (hf : m.futures a = some f) (hl : f.last = .ready) :
    q.stamp m (.poll a w) = update q.stamps a { q.stamps a with
      firstPoll := (q.stamps a).firstPoll.or (some q.now), acquired := some q.now } := by
  simp [stamp, ha, hf, hl, LastPoll.isReady]

theorem stamp_enqueue {q : LockOrder N A W} {m : Mutex N A W} {a : A} {w : W} {f : LockFuture W}
    (ha : a ∉ q.mutex.inner.waiters.toList) (ha' : a ∈ m.inner.waiters.toList)
    (hf : m.futures a = some f) (hl : f.last.isReady = false) (hst : q.stamps a = .new) :
    q.stamp m (.poll a w) = update q.stamps a ⟨some q.now, some q.now, none⟩ := by
  simp [stamp, ha, ha', hf, hl, hst, Stamps.new]

theorem stamp_repoll {q : LockOrder N A W} {m : Mutex N A W} {a : A} {w : W} {f : LockFuture W}
    {i : ℕ} (hinner : m.inner = q.mutex.inner) (hf : m.futures a = some f)
    (hl : f.last.isReady = false) (hst : q.stamps a = ⟨some i, some i, none⟩) :
    q.stamp m (.poll a w) = q.stamps := by
  have hnow : q.stamp m (.poll a w) = update q.stamps a (q.stamps a) := by
    simp [stamp, hinner, hf, hl, hst]
  rw [hnow, Function.update_eq_self]

variable [DecidableEq W]

namespace Inv

variable {q : LockOrder N A W}

theorem next {q' : LockOrder N A W} {ev : MutexEvent A W} (h : Inv q) (hok : q.TurnOk ev)
    (hs : step q ev = some q') : Inv q' := by
  obtain ⟨hal, m, hn, rfl⟩ := step_next hs
  have hwaits := h.waits.next hn
  have hex := h.exclusive.next hn
  cases hn with
  | @lock a hf =>
    have ha : ¬Mutex.Pending q.mutex.futures a := by
      rintro ⟨f, hf', -⟩
      rw [hf] at hf'
      cases hf'
    exact h.reset ha (o := some ⟨.new, .unpolled⟩) (l := q.mutex.inner.waiters)
      ⟨rfl, rfl⟩ rfl hwaits
  | @acquire a w f f' ws hf hl hws =>
    have hmem : ∀ b, b ∈ ws.toList ↔ b ∈ q.mutex.inner.waiters.toList ∧ b ≠ a :=
      fun b => h.waits.mem_retain hf hws
    have hsub : ws.toList.Sublist q.mutex.inner.waiters.toList := by
      rw [hws]
      split
      · exact List.filter_sublist
      · exact List.Sublist.refl _
    rw [stamp_acquire (fun ha => ((hmem a).mp ha).2 rfl) (update_self ..) rfl]
    exact h.acquire hal hok hf hl hmem hsub rfl hwaits hex rfl
  | @enqueue a w f ws hf hl hq hws =>
    rcases h.polled hal hf with ⟨-, hnew⟩ | ⟨hq', -⟩
    · have ha : ¬Mutex.Pending q.mutex.futures a := fun hp => by
        obtain ⟨i, -, hi⟩ := (h.fits a).of_pending hp
        rw [hnew] at hi
        cases hi
      rw [stamp_enqueue (fun hin => ha (h.pending_of_mem hin)) (by simp [hws]) (update_self ..) rfl
        hnew]
      exact h.enqueue ha hl hws rfl hwaits hex
    · rw [hq] at hq'
      cases hq'
  | @repoll a w f hf hl hq =>
    rcases h.polled hal hf with ⟨hq', -⟩ | ⟨-, hp, i, hi, hst⟩
    · rw [hq] at hq'
      cases hq'
    · rw [stamp_repoll (m := ⟨_, update _ a _, _, _⟩) rfl (update_self ..) rfl hst]
      refine h.keep hwaits hex rfl (fun b => ?_) fun b => ?_
      · by_cases hb : b = a
        · subst hb
          exact iff_of_true ⟨_, update_self .., rfl⟩ hp
        · exact Mutex.pending_update_ne hb _
      · by_cases hb : b = a
        · subst hb
          simp only [update_self]
          exact ⟨rfl, i, by omega, hst⟩
        · simp only [update_of_ne hb]
          exact (h.fits b).later (Nat.le_succ _)
  | @dropFuture a f ws hf hws =>
    have ha : ¬Mutex.Pending q.mutex.futures a := by
      rintro ⟨g, hg, hp⟩
      obtain rfl := Option.some.inj (hf.symm.trans hg)
      simp [Mutex.Allowed, hf, hp] at hal
    refine h.reset ha (o := none) rfl ?_ hwaits
    rw [hws]
    split
    · refine List.filter_eq_self.mpr fun b hb => ?_
      have hba : b ≠ a := fun he => ha (he ▸ h.pending_of_mem hb)
      simpa using hba
    · rfl
  | @release guards hg hnil =>
    have hl : q.mutex.inner.locked = true := h.exclusive.locked (by omega)
    refine h.dropGuard hwaits hex hl rfl ?_ (fun _ => Iff.rfl) fun b => (h.fits b).later (Nat.le_succ _)
    simp [hnil]
  | @wakeFirst guards a f ws hg hws hf =>
    have hl : q.mutex.inner.locked = true := h.exclusive.locked (by omega)
    refine h.dropGuard hwaits hex hl rfl ?_ (fun b => Mutex.pending_wakeByRef _)
      fun b => ((h.fits b).later (Nat.le_succ _)).wakeByRef _
    simp [hws]
  | @forget guards hg =>
    exact h.keep hwaits hex rfl (fun _ => Iff.rfl) fun b => (h.fits b).later (Nat.le_succ _)

/-- A poll that keeps the order of the queue takes nobody's turn. -/
theorem turnOk {q' : LockOrder N A W} {ev : MutexEvent A W} (h : Inv q)
    (hs : step q ev = some q') (hfifo : Stamps.Fifo q'.stamps) : q.TurnOk ev := by
  obtain ⟨hal, m, hn, rfl⟩ := step_next hs
  cases hn with
  | @acquire a w f f' ws hf hl hws =>
    intro _
    have hmem : ∀ b, b ∈ ws.toList ↔ b ∈ q.mutex.inner.waiters.toList ∧ b ≠ a :=
      fun b => h.waits.mem_retain hf hws
    rw [stamp_acquire (fun ha => ((hmem a).mp ha).2 rfl) (update_self ..) rfl] at hfifo
    exact (h.overtakes_iff hal hf hl rfl).mp hfifo
  | enqueue _ hl =>
    intro hfree
    rw [hl] at hfree
    cases hfree
  | repoll _ hl =>
    intro hfree
    rw [hl] at hfree
    cases hfree
  | _ => trivial

end Inv

omit [DecidableEq A] [DecidableEq W] in
theorem inv_init : (init : LockOrder N A W).Inv where
  waits := Mutex.waits_init
  exclusive := rfl
  fits := fun _ => rfl
  sorted := List.Pairwise.nil
  free := fun _ _ => rfl
  turn := fun _ ⟨⟨_, hf, _⟩, _⟩ => by cases hf
  some_turn := fun _ ⟨_, _, hf, _⟩ => by cases hf
  fifo := fun _ _ _ _ hk => by cases hk

/-- **When the lock is granted in the order of the queue.** In every state of
a run a future has acquired the mutex after those that joined the queue before
it joined or was polled first, exactly when no poll of the run finds the mutex
free while another future has its turn: a guard has popped that future, and it
has not acquired the mutex yet. -/
theorem fifo_iff (es : List (MutexEvent A W)) :
    Always step (fun q => Stamps.Fifo q.stamps) (init : LockOrder N A W) es ↔
      Along step TurnOk (init : LockOrder N A W) es :=
  always_iff_along (fun _ h => Inv.fifo h) (fun _ _ _ h hok hs => Inv.next h hok hs)
    (fun _ _ _ h hs hfifo => Inv.turnOk h hs hfifo) inv_init

/-- The future at 1 waits behind a guard; the guard goes, and the future at 2
is polled for the first time before the one at 1 is polled again. -/
def newcomer : List (MutexEvent ℕ ℕ) :=
  [.lock 0, .poll 0 0, .lock 1, .poll 1 1, .dropGuard, .lock 2, .poll 2 2]

/-- The future at 1 joined the queue at 3; the one at 2 is polled first at 6
and acquires the mutex. -/
theorem overtaken : ¬Always step (fun q => Stamps.Fifo q.stamps)
    (init : LockOrder 4 ℕ ℕ) newcomer := by
  intro h
  have hrun : (exec step (init : LockOrder 4 ℕ ℕ) newcomer).map
      (fun q => (q.stamps 1, q.stamps 2)) =
        some (⟨some 3, some 3, none⟩, ⟨some 6, none, some 6⟩) := by decide +kernel
  obtain ⟨q, hq, hobs⟩ := Option.map_eq_some_iff.mp hrun
  obtain ⟨h1, h2⟩ := Prod.mk.inj hobs
  obtain ⟨l, hl, -⟩ := h.of_exec hq 1 2 6
    ⟨3, 6, by rw [h1], Or.inr (by rw [h2]), by decide⟩ (by rw [h2])
  rw [h1] at hl
  cases hl

end LockOrder
end RtAsync

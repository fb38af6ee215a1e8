/-
# The timer queue

`timer/src/lib.rs`. The loops of `cancel` and `dequeue_expired` edit the
vector while they scan it: after a `swap_remove` the same index is looked at
again. What they do is told up to the order of the entries, which nothing
depends on.

A run of the queue is kept with what has been scheduled, cancelled and fired;
together the entries that were cancelled, fired or are pending are those that
were scheduled, each as often.

Key definitions: `TimerQueue.trySchedule`, `TimerQueue.cancel`,
`TimerQueue.dequeueExpired`, `TimerHistory`.
Key theorems: `TimerQueue.trySchedule_room`, `TimerQueue.cancel_cases`,
`TimerQueue.dequeueExpired_perm`, `TimerHistory.exactly_once`.
-/
import Mathlib.Data.List.Perm.Basic
import RtAsync.Lib.BoundedVec
import RtAsync.Lib.Transition

namespace RtAsync

open Transition (Reach)

/-- `Entry`; a callback is named, not run. -/
structure Entry (C D : Type) where
  deadline : UInt64
  callback : C
  data : D
  deriving DecidableEq, Repr

variable {N : ℕ} {C D : Type}

/-- `TimerQueue<N>`. -/
structure TimerQueue (N : ℕ) (C D : Type) where
  inner : BoundedVec (Entry C D) N

namespace TimerQueue

def new : TimerQueue N C D := ⟨.new⟩

/-- The entries, in the order of the vector. -/
def entries (self : TimerQueue N C D) : List (Entry C D) := self.inner.toList

/-- `entries.iter().map(|e| e.deadline).min()`. -/
def minDeadline (self : TimerQueue N C D) : Option UInt64 :=
  (self.entries.map Entry.deadline).min?

/-- `try_schedule`, with the queue it leaves; `none` is the panic of `unwrap`. -/
def trySchedule (self : TimerQueue N C D) (deadline : UInt64) (callback : C) (data : D) :
    Option (TimerQueue N C D × Except Unit Bool) :=
  let prevMin := self.minDeadline
  match self.inner.push ⟨deadline, callback, data⟩ with
  | none => some (self, .error ())
  | some inner => (minDeadline ⟨inner⟩).map fun newMin =>
    (⟨inner⟩, .ok (prevMin.elim true fun p => decide (newMin < p)))

/-- `schedule`; `none` is a panic. -/
def schedule (self : TimerQueue N C D) (deadline : UInt64) (callback : C) (data : D) :
    Option (TimerQueue N C D × Bool) :=
  (self.trySchedule deadline callback data).bind fun (self', r) => match r with
    | .ok isEarliest => some (self', isEarliest)
    | .error _ => none

/-- The loop of `cancel`, from index `i`. -/
def cancelFrom [DecidableEq D] (data : D) (entries : BoundedVec (Entry C D) N) (i : ℕ) :
    BoundedVec (Entry C D) N × Bool :=
  if h : i < entries.toList.length then
    if (entries.toList[i]).data = data then (entries.swapRemove i h, true)
    else cancelFrom data entries (i + 1)
  else (entries, false)
termination_by entries.toList.length - i

def cancel [DecidableEq D] (self : TimerQueue N C D) (data : D) : TimerQueue N C D × Bool :=
  let (inner, removed) := cancelFrom data self.inner 0
  (⟨inner⟩, removed)

/-- The loop of `dequeue_expired`, from index `i`: the entries it leaves and
those whose callbacks it calls, in order. -/
def dequeueFrom (now : UInt64) (entries : BoundedVec (Entry C D) N) (i : ℕ) :
    BoundedVec (Entry C D) N × List (Entry C D) :=
  if h : i < entries.toList.length then
    if (entries.toList[i]).deadline ≤ now then
      let (entries', fired) := dequeueFrom now (entries.swapRemove i h) i
      (entries', entries.toList[i] :: fired)
    else dequeueFrom now entries (i + 1)
  else (entries, [])
termination_by entries.toList.length - i
decreasing_by
  · have := entries.length_swapRemove i h
    omega
  · omega

/-- `dequeue_expired`: the queue it leaves, the entries it fires and what it
returns. -/
def dequeueExpired (self : TimerQueue N C D) (now : UInt64) :
    TimerQueue N C D × List (Entry C D) × Option UInt64 :=
  let (inner, fired) := dequeueFrom now self.inner 0
  (⟨inner⟩, fired, minDeadline ⟨inner⟩)

/-! ### The least deadline -/

theorem minDeadline_eq_none {q : TimerQueue N C D} : q.minDeadline = none ↔ q.entries = [] := by
  simp [minDeadline, List.min?_eq_none_iff]

theorem minDeadline_eq_some {q : TimerQueue N C D} {d : UInt64} :
    q.minDeadline = some d ↔ (∃ e ∈ q.entries, e.deadline = d) ∧ ∀ e ∈ q.entries, d ≤ e.deadline := by
  rw [minDeadline, List.min?_eq_some_iff]
  simp

/-! ### What the operations do -/

theorem trySchedule_full {q : TimerQueue N C D} (h : q.entries.length = N) (deadline : UInt64)
    (callback : C) (data : D) : q.trySchedule deadline callback data = some (q, .error ()) := by
  unfold trySchedule
  rw [BoundedVec.push_eq_none.mpr h]

/-- With room, the entry is added, and the answer is whether its deadline is
below all others. -/
theorem trySchedule_room {q : TimerQueue N C D} (h : q.entries.length ≠ N) (deadline : UInt64)
    (callback : C) (data : D) : ∃ q' earliest,
      q.trySchedule deadline callback data = some (q', .ok earliest) ∧
      q'.entries = q.entries ++ [⟨deadline, callback, data⟩] ∧
      (earliest = true ↔ ∀ e ∈ q.entries, deadline < e.deadline) := by
  cases hpush : q.inner.push ⟨deadline, callback, data⟩ with
  | none => exact absurd (BoundedVec.push_eq_none.mp hpush) h
  | some inner =>
    have happ : (⟨inner⟩ : TimerQueue N C D).entries = q.entries ++ [⟨deadline, callback, data⟩] :=
      (BoundedVec.push_eq_some hpush).2
    cases hnew : minDeadline ⟨inner⟩ with
    | none =>
      rw [minDeadline_eq_none, happ] at hnew
      simp at hnew
    | some newMin =>
      obtain ⟨⟨e, he, hemin⟩, hle⟩ := minDeadline_eq_some.mp hnew
      rw [happ] at he hle
      have hnewle : newMin ≤ deadline := hle ⟨deadline, callback, data⟩ (by simp)
      refine ⟨⟨inner⟩, _, by rw [trySchedule, hpush]; simp only [hnew]; rfl, happ, ?_⟩
      cases hprev : q.minDeadline with
      | none =>
        rw [minDeadline_eq_none.mp hprev]
        simp
      | some p =>
        obtain ⟨⟨e', he', rfl⟩, hple⟩ := minDeadline_eq_some.mp hprev
        rw [Option.elim_some, decide_eq_true_iff]
        constructor
        · intro hlt x hx
          -- the new least deadline is below the old one, so it is the new entry's
          have hed : e.deadline = deadline := by
            rcases List.mem_append.mp he with he | he
            · have := hple e he
              grind
            · rw [List.mem_singleton.mp he]
          have := hple x hx
          grind
        · intro hall
          have := hall e' he'
          grind

/-- A `schedule` that does not panic adds the entry. -/
theorem schedule_eq_some {q q' : TimerQueue N C D} {deadline : UInt64} {callback : C} {data : D}
    {earliest : Bool} (h : q.schedule deadline callback data = some (q', earliest)) :
    q'.entries = q.entries ++ [⟨deadline, callback, data⟩] ∧
    (earliest = true ↔ ∀ e ∈ q.entries, deadline < e.deadline) := by
  unfold schedule at h
  by_cases hlen : q.entries.length = N
  · rw [trySchedule_full hlen] at h
    cases h
  · obtain ⟨q₁, earliest₁, htry, happ, hmin⟩ := trySchedule_room hlen deadline callback data
    rw [htry] at h
    obtain ⟨rfl, rfl⟩ := Prod.mk.inj (Option.some.inj h)
    exact ⟨happ, hmin⟩

theorem cancelFrom_spec [DecidableEq D] (data : D) (entries : BoundedVec (Entry C D) N) (i : ℕ) :
    ((cancelFrom data entries i).2 = true ∧ ∃ e, e.data = data ∧
      (entries.toList.drop i).find? (·.data = data) = some e ∧
      entries.toList.Perm (e :: (cancelFrom data entries i).1.toList)) ∨
    (cancelFrom data entries i = (entries, false) ∧
      ∀ e ∈ entries.toList.drop i, e.data ≠ data) := by
  induction i using cancelFrom.induct data entries with
  | case1 i h hd =>
    rw [cancelFrom, dif_pos h, if_pos hd, List.drop_eq_getElem_cons h]
    refine Or.inl ⟨rfl, _, hd, ?_, entries.perm_swapRemove i h⟩
    exact List.find?_cons_of_pos (by simpa using hd)
  | case2 i h hd ih =>
    rw [cancelFrom, dif_pos h, if_neg hd, List.drop_eq_getElem_cons h]
    rcases ih with ⟨h1, e, h2, h3, h4⟩ | ⟨h1, h2⟩
    · exact Or.inl ⟨h1, e, h2, by rw [List.find?_cons_of_neg (by simpa using hd), h3], h4⟩
    · refine Or.inr ⟨h1, fun e he => ?_⟩
      rcases List.mem_cons.mp he with rfl | he
      · exact hd
      · exact h2 e he
  | case3 i h =>
    rw [cancelFrom, dif_neg h]
    refine Or.inr ⟨rfl, fun e he => ?_⟩
    rw [List.drop_eq_nil_of_le (Nat.not_lt.mp h)] at he
    cases he

/-- `cancel` removes the first entry with that data, if there is one. -/
theorem cancel_cases [DecidableEq D] (q : TimerQueue N C D) (data : D) :
    ((q.cancel data).2 = true ∧ ∃ e, e.data = data ∧ q.entries.find? (·.data = data) = some e ∧
      q.entries.Perm (e :: (q.cancel data).1.entries)) ∨
    (q.cancel data = (q, false) ∧ ∀ e ∈ q.entries, e.data ≠ data) := by
  rcases cancelFrom_spec data q.inner 0 with h | ⟨h1, h2⟩
  · exact Or.inl h
  · refine Or.inr ⟨?_, h2⟩
    unfold cancel
    rw [h1]

theorem mem_of_mem_cancel [DecidableEq D] {q : TimerQueue N C D} {data : D} {e : Entry C D}
    (h : e ∈ (q.cancel data).1.entries) : e ∈ q.entries := by
  rcases q.cancel_cases data with ⟨-, e', -, -, hperm⟩ | ⟨hc, -⟩
  · exact hperm.mem_iff.mpr (List.mem_cons_of_mem e' h)
  · rwa [hc] at h

/-- From index `i`, behind entries that are not due, the loop fires all that are
due and keeps the others. -/
theorem dequeueFrom_spec (now : UInt64) (entries : BoundedVec (Entry C D) N) (i : ℕ)
    (hpre : ∀ e ∈ entries.toList.take i, ¬e.deadline ≤ now) :
    entries.toList.Perm ((dequeueFrom now entries i).2 ++ (dequeueFrom now entries i).1.toList) ∧
    (∀ e ∈ (dequeueFrom now entries i).2, e.deadline ≤ now) ∧
    ∀ e ∈ (dequeueFrom now entries i).1.toList, ¬e.deadline ≤ now := by
  induction entries, i using dequeueFrom.induct now with
  | case1 entries i h hd entries1 fired1 heq ih =>
    rw [dequeueFrom, dif_pos h, if_pos hd]
    obtain ⟨hperm, hfired, hkept⟩ := ih fun e he => hpre e (entries.take_swapRemove i h ▸ he)
    refine ⟨(entries.perm_swapRemove i h).trans (hperm.cons _), fun e he => ?_, hkept⟩
    rcases List.mem_cons.mp he with rfl | he
    · exact hd
    · exact hfired e he
  | case2 entries i h hd ih =>
    rw [dequeueFrom, dif_pos h, if_neg hd]
    refine ih fun e he => ?_
    rw [List.take_add_one, List.getElem?_eq_getElem h, Option.toList_some] at he
    rcases List.mem_append.mp he with he | he
    · exact hpre e he
    · rw [List.mem_singleton.mp he]
      exact hd
  | case3 entries i h =>
    rw [dequeueFrom, dif_neg h]
    rw [List.take_of_length_le (Nat.not_lt.mp h)] at hpre
    refine ⟨List.Perm.refl _, fun e he => ?_, hpre⟩
    cases he

theorem dequeueExpired_split (q : TimerQueue N C D) (now : UInt64) :
    q.entries.Perm ((q.dequeueExpired now).2.1 ++ (q.dequeueExpired now).1.entries) :=
  (dequeueFrom_spec now q.inner 0 fun e he => by cases he).1

/-- `dequeue_expired` fires the entries that are due, keeps the others and
returns their least deadline. -/
theorem dequeueExpired_perm (q : TimerQueue N C D) (now : UInt64) :
    (q.dequeueExpired now).2.1.Perm (q.entries.filter fun e => e.deadline ≤ now) ∧
    (q.dequeueExpired now).1.entries.Perm (q.entries.filter fun e => ¬e.deadline ≤ now) ∧
    (q.dequeueExpired now).2.2 = (q.dequeueExpired now).1.minDeadline := by
  obtain ⟨hperm, hfired, hkept⟩ := dequeueFrom_spec now q.inner 0 fun e he => by cases he
  have hsplit := fun p : Entry C D → Bool => (hperm.filter p).symm
  refine ⟨?_, ?_, rfl⟩
  · have hf := hsplit fun e => e.deadline ≤ now
    rw [List.filter_append, List.filter_eq_self.mpr fun e he => decide_eq_true (hfired e he),
      List.filter_eq_nil_iff.mpr fun e he => by simpa using hkept e he, List.append_nil] at hf
    exact hf
  · have hf := hsplit fun e => ¬e.deadline ≤ now
    rw [List.filter_append, List.filter_eq_nil_iff.mpr fun e he => by simpa using hfired e he,
      List.filter_eq_self.mpr fun e he => decide_eq_true (hkept e he), List.nil_append] at hf
    exact hf

end TimerQueue

/-! ### Runs -/

/-- A call of the queue; callbacks do not call it. -/
inductive TimerOp (C D : Type)
  | trySchedule (deadline : UInt64) (callback : C) (data : D)
  | cancel (data : D)
  | dequeueExpired (now : UInt64)

/-- The queue, and the entries that have been scheduled, cancelled and fired. -/
structure TimerHistory (N : ℕ) (C D : Type) where
  queue : TimerQueue N C D
  scheduled : List (Entry C D)
  cancelled : List (Entry C D)
  fired : List (Entry C D)

namespace TimerHistory

open TimerQueue

def init : TimerHistory N C D := ⟨.new, [], [], []⟩

variable [DecidableEq D]

/-- `cancel` takes out the first entry with its data. -/
def step (h : TimerHistory N C D) : TimerOp C D → Option (TimerHistory N C D)
  | .trySchedule deadline callback data =>
    (h.queue.trySchedule deadline callback data).map fun (queue, result) => match result with
      | .ok _ => { h with queue, scheduled := ⟨deadline, callback, data⟩ :: h.scheduled }
      | .error _ => { h with queue }
  | .cancel data => some { h with
      queue := (h.queue.cancel data).1
      cancelled := (h.queue.entries.find? (·.data = data)).toList ++ h.cancelled }
  | .dequeueExpired now => some { h with
      queue := (h.queue.dequeueExpired now).1
      fired := (h.queue.dequeueExpired now).2.1 ++ h.fired }

/-- What was scheduled was fired, cancelled or is pending, each as often. -/
def Accounted (h : TimerHistory N C D) : Prop :=
  h.scheduled.Perm (h.fired ++ (h.cancelled ++ h.queue.entries))

theorem Accounted.next {h h' : TimerHistory N C D} {op : TimerOp C D} (ha : h.Accounted)
    (hs : step h op = some h') : h'.Accounted := by
  unfold Accounted at ha ⊢
  cases op with
  | trySchedule deadline callback data =>
    obtain ⟨⟨q, r⟩, hq, rfl⟩ := Option.map_eq_some_iff.mp hs
    by_cases hlen : h.queue.entries.length = N
    · rw [trySchedule_full hlen] at hq
      obtain ⟨rfl, rfl⟩ := Prod.mk.inj (Option.some.inj hq)
      exact ha
    · obtain ⟨q', earliest, hq', happ, -⟩ := trySchedule_room hlen deadline callback data
      rw [hq'] at hq
      obtain ⟨rfl, rfl⟩ := Prod.mk.inj (Option.some.inj hq)
      show (_ :: h.scheduled).Perm (h.fired ++ (h.cancelled ++ q'.entries))
      rw [happ, ← List.append_assoc, ← List.append_assoc, List.append_assoc h.fired]
      exact (ha.cons _).trans (List.perm_append_singleton _ _).symm
  | cancel data =>
    obtain rfl := Option.some.inj hs
    show h.scheduled.Perm (h.fired ++ (_ ++ h.cancelled ++ _))
    refine ha.trans (List.Perm.append_left _ ?_)
    rcases h.queue.cancel_cases data with ⟨-, e, -, hfind, hperm⟩ | ⟨hc, hnone⟩
    · rw [hfind, Option.toList_some, List.singleton_append, List.cons_append]
      exact (hperm.append_left _).trans List.perm_middle
    · rw [hc, List.find?_eq_none.mpr fun e he => by simpa using hnone e he]
      exact List.Perm.refl _
  | dequeueExpired now =>
    obtain rfl := Option.some.inj hs
    have hsplit := h.queue.dequeueExpired_split now
    show h.scheduled.Perm (_ ++ h.fired ++ (h.cancelled ++ _))
    refine ha.trans ?_
    calc h.fired ++ (h.cancelled ++ h.queue.entries)
        |>.Perm (h.fired ++ (h.cancelled ++ ((h.queue.dequeueExpired now).2.1 ++
          (h.queue.dequeueExpired now).1.entries))) := (hsplit.append_left _).append_left _
      _ |>.Perm (h.fired ++ ((h.queue.dequeueExpired now).2.1 ++
          (h.cancelled ++ (h.queue.dequeueExpired now).1.entries))) :=
        List.perm_append_comm_assoc _ _ _ |>.append_left _
      _ |>.Perm ((h.queue.dequeueExpired now).2.1 ++ (h.fired ++
          (h.cancelled ++ (h.queue.dequeueExpired now).1.entries))) :=
        List.perm_append_comm_assoc _ _ _
      _ |>.Perm _ := by rw [List.append_assoc]

theorem accounted {h : TimerHistory N C D} (hr : Reach step init h) : h.Accounted :=
  hr.invariant (fun _ _ _ ha hs => ha.next hs) (List.Perm.refl _)

/-- **A bounded multiset of timers.** In every state of every run the entries
that were scheduled are those that were fired, cancelled or are pending, each
as often, and at most `N` are pending. There, `try_schedule` fails exactly
when `N` are pending and changes nothing, and otherwise adds the entry and
tells whether its deadline is below all others; `cancel` removes one entry
with its data, or changes nothing where there is none; `dequeue_expired`
fires the entries that are due, keeps the others and returns their least
deadline. -/
theorem exactly_once {h : TimerHistory N C D} (hr : Reach step init h) :
    h.scheduled.Perm (h.fired ++ (h.cancelled ++ h.queue.entries)) ∧
    h.queue.entries.length ≤ N ∧
    (∀ deadline callback data,
      (h.queue.entries.length = N →
        h.queue.trySchedule deadline callback data = some (h.queue, .error ())) ∧
      (h.queue.entries.length ≠ N → ∃ q earliest,
        h.queue.trySchedule deadline callback data = some (q, .ok earliest) ∧
        q.entries = h.queue.entries ++ [⟨deadline, callback, data⟩] ∧
        (earliest = true ↔ ∀ e ∈ h.queue.entries, deadline < e.deadline))) ∧
    (∀ data,
      ((∃ e ∈ h.queue.entries, e.data = data) → (h.queue.cancel data).2 = true ∧
        ∃ e, e.data = data ∧ h.queue.entries.Perm (e :: (h.queue.cancel data).1.entries)) ∧
      ((¬∃ e ∈ h.queue.entries, e.data = data) → h.queue.cancel data = (h.queue, false))) ∧
    ∀ now,
      (h.queue.dequeueExpired now).2.1.Perm (h.queue.entries.filter fun e => e.deadline ≤ now) ∧
      (h.queue.dequeueExpired now).1.entries.Perm
        (h.queue.entries.filter fun e => ¬e.deadline ≤ now) ∧
      ((h.queue.dequeueExpired now).2.2 = none ↔ (h.queue.dequeueExpired now).1.entries = []) ∧
      ∀ d, (h.queue.dequeueExpired now).2.2 = some d ↔
        (∃ e ∈ (h.queue.dequeueExpired now).1.entries, e.deadline = d) ∧
          ∀ e ∈ (h.queue.dequeueExpired now).1.entries, d ≤ e.deadline := by
  refine ⟨accounted hr, h.queue.inner.length_le, fun deadline callback data => ?_,
    fun data => ?_, fun now => ?_⟩
  · exact ⟨fun hlen => trySchedule_full hlen deadline callback data,
      fun hlen => trySchedule_room hlen deadline callback data⟩
  · rcases h.queue.cancel_cases data with ⟨htrue, e, hd, hfind, hperm⟩ | ⟨hc, hnone⟩
    · refine ⟨fun _ => ⟨htrue, e, hd, hperm⟩, fun hno => absurd ?_ hno⟩
      exact ⟨e, List.mem_of_find?_eq_some hfind, hd⟩
    · exact ⟨fun ⟨e, he, hd⟩ => absurd hd (hnone e he), fun _ => hc⟩
  · obtain ⟨hfired, hkept, hret⟩ := h.queue.dequeueExpired_perm now
    rw [hret]
    exact ⟨hfired, hkept, minDeadline_eq_none, fun d => minDeadline_eq_some⟩

/-- Three timers with two deadlines and two data: one is cancelled, one fires,
one is pending. -/
theorem exactly_once_three : ∃ h : TimerHistory 3 Unit Bool,
    (h.fired.map Entry.deadline, h.cancelled.map Entry.deadline,
      h.queue.entries.map Entry.deadline) = ([5], [5], [9]) ∧
    h.scheduled.Perm (h.fired ++ (h.cancelled ++ h.queue.entries)) := by
  have hobs : ((Transition.exec step (init : TimerHistory 3 Unit Bool)
      [.trySchedule 5 () true, .trySchedule 9 () true, .trySchedule 5 () false, .cancel true,
        .dequeueExpired 7]).map fun h => (h.fired.map Entry.deadline,
          h.cancelled.map Entry.deadline, h.queue.entries.map Entry.deadline)) =
      some ([5], [5], [9]) := by decide +kernel
  obtain ⟨h, hexec, hobs⟩ := Option.map_eq_some_iff.mp hobs
  exact ⟨h, hobs, (exactly_once (Transition.reach_of_exec _ hexec)).1⟩

end TimerHistory
end RtAsync

/-
# Join handles and the outputs they are for

One storage is spawned any number of times. Its incarnations are numbered by
the futures written to it, from 1. The `k`-th future returns an output, which
is tagged with `k`; the `k`-th token becomes the `k`-th handle, and a handle
that resolves keeps what it resolved with. The join state has room for one
output and one waker and does not know whose they are.

`Desk.Next` is what may happen to it: an output is put down, taken by the
handle that is polled, or cleared once the handle of its incarnation is no
longer live. Then every handle resolves with its own output and none is lost
(`Desk.Ok`).

Key definitions: `Ticket`, `Ledger`, `Epoch`, `Desk`, `Desk.Next`, `Desk.Ok`.
Key theorems: `Desk.Ok.next`, `Desk.Ok.delivered`, `Desk.Ok.unregistered`.
-/
import Mathlib.Data.Nat.Notation
import Mathlib.Logic.Function.Basic
import Mathlib.Data.List.Nodup

namespace RtAsync

open Function (update update_self update_of_ne)

variable {V : Type}

/-! ### Tickets -/

/-- A `JoinHandle`, from the `SpawnToken` it is made of: not made yet, a token,
a handle outside of `JoinHandle::poll` or inside of it, a handle that has
resolved, a handle that was dropped. -/
inductive Ticket (V : Type)
  | absent
  | token
  | idle
  | polling
  | resolved (v : ℕ × V)
  | dropped
  deriving DecidableEq

/-- The output of the incarnation can still be asked for. -/
def Ticket.Live : Ticket V → Prop
  | token => True
  | idle => True
  | polling => True
  | _ => False

/-- What one storage owes: `born` futures were written to it, `polls` are the
handles being polled, innermost first, `registered` is the handle whose waker
lies in `join.waker`, and `output k` is what the `k`-th future returned. -/
structure Ledger (V : Type) where
  born : ℕ
  ticket : ℕ → Ticket V
  polls : List ℕ
  registered : Option ℕ
  output : ℕ → Option V

namespace Ledger

def empty : Ledger V := ⟨0, fun _ => .absent, [], none, fun _ => none⟩

def setTicket (l : Ledger V) (k : ℕ) (x : Ticket V) : Ledger V :=
  { l with ticket := update l.ticket k x }

def unregister (l : Ledger V) : Ledger V := { l with registered := none }

/-- The next future is written, and its token returned. -/
def write (l : Ledger V) : Ledger V :=
  { l.setTicket (l.born + 1) .token with born := l.born + 1 }

/-- A future has returned `v`. -/
def finish (l : Ledger V) (v : ℕ × V) : Ledger V :=
  { l with output := update l.output v.1 (some v.2) }

/-- The innermost poll of a handle takes `v`. -/
def take (l : Ledger V) (v : ℕ × V) : Ledger V :=
  match l.polls with
  | k :: ks => { l.setTicket k (.resolved v) with polls := ks }
  | [] => l

/-- The innermost poll of a handle stores its waker. -/
def store (l : Ledger V) : Ledger V :=
  match l.polls with
  | k :: ks => { l.setTicket k .idle with polls := ks, registered := some k }
  | [] => l

/-- `Spawner::spawn` consumes the token `k`. -/
def spawn (l : Ledger V) (k : ℕ) : Option (Ledger V) :=
  match l.ticket k with
  | .token => some (l.setTicket k .idle)
  | _ => none

/-- A poll of the handle `k` begins. -/
def join (l : Ledger V) (k : ℕ) : Option (Ledger V) :=
  match l.ticket k with
  | .idle => some { l.setTicket k .polling with polls := k :: l.polls }
  | _ => none

/-- The handle `k` is dropped. -/
def drop (l : Ledger V) (k : ℕ) : Option (Ledger V) :=
  match l.ticket k with
  | .idle => some (l.setTicket k .dropped)
  | _ => none

theorem spawn_some {l l' : Ledger V} {k : ℕ} (h : l.spawn k = some l') :
    l.ticket k = .token ∧ l' = l.setTicket k .idle := by
  unfold spawn at h
  split at h
  · rename_i hk
    exact ⟨hk, (Option.some.inj h).symm⟩
  · cases h

theorem join_some {l l' : Ledger V} {k : ℕ} (h : l.join k = some l') :
    l.ticket k = .idle ∧ l' = { l.setTicket k .polling with polls := k :: l.polls } := by
  unfold join at h
  split at h
  · rename_i hk
    exact ⟨hk, (Option.some.inj h).symm⟩
  · cases h

theorem drop_some {l l' : Ledger V} {k : ℕ} (h : l.drop k = some l') :
    l.ticket k = .idle ∧ l' = l.setTicket k .dropped := by
  unfold drop at h
  split at h
  · rename_i hk
    exact ⟨hk, (Option.some.inj h).symm⟩
  · cases h

theorem take_cons {l : Ledger V} {k : ℕ} {ks : List ℕ} (h : l.polls = k :: ks) (v : ℕ × V) :
    l.take v = { l.setTicket k (.resolved v) with polls := ks } := by
  rw [take, h]

theorem store_cons {l : Ledger V} {k : ℕ} {ks : List ℕ} (h : l.polls = k :: ks) :
    l.store = { l.setTicket k .idle with polls := ks, registered := some k } := by
  rw [store, h]

theorem take_born (l : Ledger V) (v : ℕ × V) : (l.take v).born = l.born := by
  unfold take
  split <;> rfl

theorem store_born (l : Ledger V) : l.store.born = l.born := by
  unfold store
  split <;> rfl

theorem take_polls (l : Ledger V) (v : ℕ × V) : (l.take v).polls = l.polls.tail := by
  unfold take
  split <;> simp [*]

theorem take_registered (l : Ledger V) (v : ℕ × V) : (l.take v).registered = l.registered := by
  unfold take
  split <;> rfl

theorem store_polls (l : Ledger V) : l.store.polls = l.polls.tail := by
  unfold store
  split <;> simp [*]

end Ledger

/-! ### The join state -/

/-- Where the storage stands: the last future has not returned its output, it
has (or there was none), or `TaskStorage::spawn` has cleared `join.result` for
the next. -/
inductive Epoch
  | pending
  | done
  | cleared
  deriving DecidableEq, Repr

/-- `join.result`, and the ledger beside it. -/
structure Desk (V : Type) where
  epoch : Epoch
  result : Option (ℕ × V)
  ledger : Ledger V

namespace Desk

/-- The handle of the last incarnation is live. -/
def Awaited (d : Desk V) : Prop := (d.ledger.ticket d.ledger.born).Live

/-- What may happen. `join.result` is cleared only when the last handle is no
longer live. -/
inductive Next (d : Desk V) : Desk V → Prop
  | keep : Next d d
  | unregister : Next d { d with ledger := d.ledger.unregister }
  | clear : d.epoch = .done → ¬d.Awaited → Next d { d with epoch := .cleared, result := none }
  | write : d.epoch = .cleared → Next d { d with epoch := .pending, ledger := d.ledger.write }
  | finish (v : ℕ × V) : d.epoch = .pending → v.1 = d.ledger.born →
      Next d ⟨.done, some v, d.ledger.finish v⟩
  | take (v : ℕ × V) : d.result = some v → d.ledger.polls ≠ [] →
      Next d { d with result := none, ledger := d.ledger.take v }
  | store : d.ledger.polls ≠ [] → Next d { d with ledger := d.ledger.store }
  | spawn (k : ℕ) {l' : Ledger V} : d.ledger.spawn k = some l' → Next d { d with ledger := l' }
  | join (k : ℕ) {l' : Ledger V} : d.ledger.join k = some l' → Next d { d with ledger := l' }
  | drop (k : ℕ) {l' : Ledger V} : d.ledger.drop k = some l' → Next d { d with ledger := l' }

/-- The output of the last incarnation lies in `join.result`, or its handle is
no longer live. -/
def Settled (d : Desk V) : Prop :=
  (∃ v, d.result = some (d.ledger.born, v) ∧ d.ledger.output d.ledger.born = some v) ∨
    (d.result = none ∧ ¬d.Awaited)

/-- Only the last handle is live, and what it waits for is returned, lies in
`join.result` or is to come. -/
structure Ok (d : Desk V) : Prop where
  last : ∀ k, (d.ledger.ticket k).Live → k = d.ledger.born
  fresh : ∀ k, d.ledger.born < k → d.ledger.output k = none
  own : ∀ k v, d.ledger.ticket k = .resolved v → v.1 = k ∧ d.ledger.output k = some v.2
  polling : ∀ k ∈ d.ledger.polls, d.ledger.ticket k = .polling
  nodup : d.ledger.polls.Nodup
  pending : d.epoch = .pending → d.result = none ∧ d.ledger.output d.ledger.born = none
  done : d.epoch = .done → d.Settled
  cleared : d.epoch = .cleared → d.result = none ∧ ¬d.Awaited

def init : Desk V := ⟨.done, none, .empty⟩

theorem init_ok : Ok (init : Desk V) where
  last _ h := h.elim
  fresh _ _ := rfl
  own _ _ h := by cases h
  polling _ h := by cases h
  nodup := List.nodup_nil
  pending h := by cases h
  done _ := Or.inr ⟨rfl, id⟩
  cleared h := by cases h

namespace Ok

variable {d : Desk V}

/-- What lies in `join.result` is what the last future returned. -/
theorem result (hd : Ok d) {v : ℕ × V} (h : d.result = some v) :
    v.1 = d.ledger.born ∧ d.ledger.output d.ledger.born = some v.2 := by
  cases he : d.epoch with
  | pending =>
    rw [(hd.pending he).1] at h
    cases h
  | done =>
    rcases hd.done he with ⟨x, hx, hout⟩ | ⟨hnone, -⟩
    · rw [hx] at h
      obtain rfl := Option.some.inj h
      exact ⟨rfl, hout⟩
    · rw [hnone] at h
      cases h
  | cleared =>
    rw [(hd.cleared he).1] at h
    cases h

/-- A handle that is polled after its future has returned finds the output. -/
theorem delivered (hd : Ok d) {k : ℕ} {v : V} (hk : k ∈ d.ledger.polls)
    (hout : d.ledger.output k = some v) : d.result = some (k, v) := by
  have hpoll := hd.polling k hk
  have hlive : (d.ledger.ticket k).Live := by
    rw [hpoll]
    trivial
  obtain rfl := hd.last k hlive
  cases he : d.epoch with
  | pending =>
    rw [(hd.pending he).2] at hout
    cases hout
  | done =>
    rcases hd.done he with ⟨x, hx, hxout⟩ | ⟨-, hno⟩
    · rw [hxout] at hout
      rw [hx, Option.some.inj hout]
    · exact absurd hlive hno
  | cleared => exact absurd hlive (hd.cleared he).2

/-- Nobody is live while the next future is about to be written. -/
theorem unregistered (hd : Ok d) (he : d.epoch = .cleared) (k : ℕ) : ¬(d.ledger.ticket k).Live := by
  intro hlive
  obtain rfl := hd.last k hlive
  exact (hd.cleared he).2 hlive

/-- The handle of the innermost poll is live, and the other polls are not of it. -/
theorem innermost (hd : Ok d) {k : ℕ} {ks : List ℕ} (hks : d.ledger.polls = k :: ks) :
    (d.ledger.ticket k).Live ∧ ks.Nodup ∧ ∀ j ∈ ks, j ≠ k ∧ j ∈ d.ledger.polls := by
  have hnd := hd.nodup
  rw [hks] at hnd
  obtain ⟨hnot, hnd⟩ := List.nodup_cons.mp hnd
  have hpoll : d.ledger.ticket k = .polling := hd.polling k (hks ▸ List.mem_cons_self)
  refine ⟨?_, hnd, fun j hj => ⟨fun h => hnot (h ▸ hj), ?_⟩⟩
  · rw [hpoll]
    trivial
  · rw [hks]
    exact List.mem_cons_of_mem _ hj

theorem not_mem_polls (hd : Ok d) {k : ℕ} (hk : d.ledger.ticket k ≠ .polling) :
    k ∉ d.ledger.polls :=
  fun hmem => hk (hd.polling k hmem)

/-- A ticket moves on: the handle stays live, or it is used up while its
output is gone, or was never asked for. -/
theorem setTicket (hd : Ok d) {k : ℕ} {x : Ticket V} {ks : List ℕ} {r : Option ℕ}
    {res : Option (ℕ × V)} (hlive : (d.ledger.ticket k).Live)
    (hown : ∀ v, x = .resolved v → v.1 = k ∧ d.ledger.output k = some v.2)
    (hpoll : ∀ j ∈ ks, j = k ∧ x = .polling ∨ j ≠ k ∧ j ∈ d.ledger.polls) (hnodup : ks.Nodup)
    (hres : res = d.result ∨ res = none ∧ ¬x.Live) :
    Ok { d with result := res, ledger := { d.ledger.setTicket k x with polls := ks, registered := r } } := by
  have hborn : k = d.ledger.born := hd.last k hlive
  subst hborn
  refine ⟨?_, hd.fresh, ?_, ?_, hnodup, ?_, ?_, ?_⟩
  · intro j hj
    by_cases hjk : j = d.ledger.born
    · exact hjk
    · have hj : (update d.ledger.ticket d.ledger.born x j).Live := hj
      rw [update_of_ne hjk] at hj
      exact hd.last j hj
  · intro j v hj
    by_cases hjk : j = d.ledger.born
    · subst hjk
      have hj : update d.ledger.ticket d.ledger.born x d.ledger.born = .resolved v := hj
      rw [update_self] at hj
      exact hown v hj
    · have hj : update d.ledger.ticket d.ledger.born x j = .resolved v := hj
      rw [update_of_ne hjk] at hj
      exact hd.own j v hj
  · intro j hj
    show update d.ledger.ticket d.ledger.born x j = .polling
    rcases hpoll j hj with ⟨rfl, hx⟩ | ⟨hjk, hmem⟩
    · rw [update_self, hx]
    · rw [update_of_ne hjk]
      exact hd.polling j hmem
  · intro he
    refine ⟨?_, (hd.pending he).2⟩
    rcases hres with rfl | ⟨rfl, -⟩
    · exact (hd.pending he).1
    · rfl
  · intro he
    rcases hres with rfl | ⟨rfl, hx⟩
    · rcases hd.done he with ⟨v, hv, hout⟩ | ⟨hnone, hno⟩
      · exact Or.inl ⟨v, hv, hout⟩
      · exact absurd hlive hno
    · refine Or.inr ⟨rfl, ?_⟩
      show ¬(update d.ledger.ticket d.ledger.born x d.ledger.born).Live
      rwa [update_self]
  · exact fun he => absurd hlive (hd.cleared he).2

/-- The next future is written: nobody has its handle yet. -/
theorem write (hd : Ok d) (he : d.epoch = .cleared) :
    Ok { d with epoch := .pending, ledger := d.ledger.write } := by
  have hno := hd.unregistered he
  have hother : ∀ k, k ≠ d.ledger.born + 1 →
      d.ledger.write.ticket k = d.ledger.ticket k := fun k hk => update_of_ne hk _ _
  have hself : d.ledger.write.ticket (d.ledger.born + 1) = .token := update_self _ _ _
  refine ⟨?_, ?_, ?_, ?_, hd.nodup, ?_, fun h => (by cases h), fun h => (by cases h)⟩
  · intro k hk
    by_cases hkb : k = d.ledger.born + 1
    · exact hkb
    · rw [show (d.ledger.write.ticket k).Live = (d.ledger.ticket k).Live by rw [hother k hkb]] at hk
      exact absurd hk (hno k)
  · intro k hk
    exact hd.fresh k (Nat.lt_of_succ_lt hk)
  · intro k v hk
    by_cases hkb : k = d.ledger.born + 1
    · rw [hkb] at hk
      have hk : d.ledger.write.ticket (d.ledger.born + 1) = .resolved v := hk
      rw [hself] at hk
      cases hk
    · exact hd.own k v ((hother k hkb).symm.trans hk)
  · intro k hk
    have hpoll := hd.polling k hk
    refine absurd ?_ (hno k)
    rw [hpoll]
    trivial
  · exact fun _ => ⟨(hd.cleared he).1, hd.fresh _ (Nat.lt_succ_self _)⟩

/-- The future returns its output, which goes to `join.result`. -/
theorem finish (hd : Ok d) (he : d.epoch = .pending) (v : V) :
    Ok { d with epoch := .done, result := some (d.ledger.born, v),
                ledger := d.ledger.finish (d.ledger.born, v) } := by
  have hnone := (hd.pending he).2
  have hout : (d.ledger.finish (d.ledger.born, v)).output d.ledger.born = some v := update_self _ _ _
  refine ⟨hd.last, ?_, ?_, hd.polling, hd.nodup, fun h => (by cases h),
    fun _ => Or.inl ⟨v, rfl, hout⟩, fun h => (by cases h)⟩
  · intro k hk
    have hne : k ≠ d.ledger.born := Nat.ne_of_gt hk
    exact (update_of_ne hne _ _).trans (hd.fresh k hk)
  · intro k x hk
    obtain ⟨hxk, hx⟩ := hd.own k x hk
    have hne : k ≠ d.ledger.born := fun h => by
      rw [h, hnone] at hx
      cases hx
    exact ⟨hxk, (update_of_ne hne _ _).trans hx⟩

/-- Whatever may happen leaves the outputs with their handles. -/
theorem next {d' : Desk V} (hd : Ok d) (h : Next d d') : Ok d' := by
  cases h with
  | keep => exact hd
  | unregister => exact ⟨hd.last, hd.fresh, hd.own, hd.polling, hd.nodup, hd.pending, hd.done, hd.cleared⟩
  | clear _ hno =>
    exact ⟨hd.last, hd.fresh, hd.own, hd.polling, hd.nodup, fun h => (by cases h),
      fun h => (by cases h), fun _ => ⟨rfl, hno⟩⟩
  | write he => exact hd.write he
  | finish v he hv =>
    obtain ⟨j, v⟩ := v
    obtain rfl : j = d.ledger.born := hv
    exact hd.finish he v
  | take v hv hpolls =>
    obtain ⟨k, ks, hks⟩ := List.exists_cons_of_ne_nil hpolls
    obtain ⟨hlive, hnd, hrest⟩ := hd.innermost hks
    obtain ⟨hvb, hout⟩ := hd.result hv
    have hkb := hd.last k hlive
    rw [Ledger.take_cons hks]
    refine hd.setTicket hlive (fun w hw => ?_) (fun j hj => Or.inr (hrest j hj)) hnd
      (Or.inr ⟨rfl, id⟩)
    obtain rfl := Ticket.resolved.inj hw
    rw [hkb]
    exact ⟨hvb, hout⟩
  | store hpolls =>
    obtain ⟨k, ks, hks⟩ := List.exists_cons_of_ne_nil hpolls
    obtain ⟨hlive, hnd, hrest⟩ := hd.innermost hks
    rw [Ledger.store_cons hks]
    exact hd.setTicket hlive (fun w hw => by cases hw) (fun j hj => Or.inr (hrest j hj)) hnd
      (Or.inl rfl)
  | spawn k h =>
    obtain ⟨hk, rfl⟩ := Ledger.spawn_some h
    have hnot := hd.not_mem_polls (k := k) (by rw [hk]; simp)
    exact hd.setTicket (by rw [hk]; trivial) (fun w hw => by cases hw)
      (fun j hj => Or.inr ⟨fun h => hnot (h ▸ hj), hj⟩) hd.nodup (Or.inl rfl)
  | drop k h =>
    obtain ⟨hk, rfl⟩ := Ledger.drop_some h
    have hnot := hd.not_mem_polls (k := k) (by rw [hk]; simp)
    exact hd.setTicket (by rw [hk]; trivial) (fun w hw => by cases hw)
      (fun j hj => Or.inr ⟨fun h => hnot (h ▸ hj), hj⟩) hd.nodup (Or.inl rfl)
  | join k h =>
    obtain ⟨hk, rfl⟩ := Ledger.join_some h
    have hnot := hd.not_mem_polls (k := k) (by rw [hk]; simp)
    refine hd.setTicket (by rw [hk]; trivial) (fun w hw => by cases hw) (fun j hj => ?_)
      (List.nodup_cons.mpr ⟨hnot, hd.nodup⟩) (Or.inl rfl)
    rcases List.mem_cons.mp hj with rfl | hj
    · exact Or.inl ⟨rfl, rfl⟩
    · exact Or.inr ⟨fun h => hnot (h ▸ hj), hj⟩

end Ok
end Desk
end RtAsync

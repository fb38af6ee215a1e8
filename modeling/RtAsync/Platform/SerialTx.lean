/-
# Writing to the serial port

`platform/src/drivers/serial_ns16550a.rs`: `write` waits, for each byte, until
the transmitter is empty, and hands it the byte. An interrupt may come between
the two, and its handler may write as well (a log line, a panic), so that the
byte meets a transmitter that is not empty any more. The transmitter queues a
few bytes, and loses one that finds the queue full.

A writer that has seen the transmitter empty puts at most one byte on top of
what it saw. So nothing is lost as long as no more writers are nested than the
transmitter queues, and one more can lose a byte.

Key definitions: `TxCall`, `SerialTx.step`, `SerialTx.Written`,
`SerialTx.Room`, `SerialTx.InOrder`.
Key theorems: `SerialTx.Written.next`, `SerialTx.Room.next`,
`SerialTx.exists_lossy`, `SerialTx.writes`.
-/
import Mathlib.Data.List.Count
import RtAsync.Lib.Transition

namespace RtAsync

open Transition (Steps)

/-! ### The source -/

/-- The next access of `Ns16550a::write`. -/
inductive TxPc
  /-- `while !r.lsr.is_set(Lsr::THRE)`. -/
  | check
  /-- `r.rbr_thr.set(byte)`. -/
  | put
  deriving DecidableEq

/-- A call of `write` in progress, the `id`-th one, with the bytes that are
left of `buf`. -/
structure TxCall where
  id : ℕ
  buf : List UInt8
  pc : TxPc
  deriving DecidableEq

/-- The transmitter and the calls in progress, innermost first. `line` is what
was sent, `fifo` what is queued; `written` is what was handed to it, and by
which call, and `bufs` what the calls so far were given. -/
structure SerialTx where
  fifo : List UInt8
  line : List UInt8
  calls : List TxCall
  written : List (ℕ × UInt8)
  bufs : List (List UInt8)
  deriving DecidableEq

/-- `shift`: the transmitter sends a byte. -/
inductive TxEvent
  | call (buf : List UInt8)
  | tick
  | shift

namespace SerialTx

def init : SerialTx := ⟨[], [], [], [], []⟩

/-- `THR` is written, where the transmitter queues `depth` bytes. -/
def setThr (depth : ℕ) (u : SerialTx) (byte : UInt8) : SerialTx :=
  if u.fifo.length < depth then { u with fifo := u.fifo ++ [byte] } else u

/-- The next access of the innermost call. -/
def tickStep (depth : ℕ) (u : SerialTx) (c : TxCall) (cs : List TxCall) : Option SerialTx :=
  match c.pc, c.buf with
  | .check, [] => some { u with calls := cs }
  | .check, _ :: _ =>
    if u.fifo = [] then some { u with calls := { c with pc := .put } :: cs } else some u
  | .put, [] => none
  | .put, byte :: rest =>
    some { u.setThr depth byte with
      calls := { c with buf := rest, pc := .check } :: cs
      written := u.written ++ [(c.id, byte)] }

def step (depth : ℕ) (u : SerialTx) : TxEvent → Option SerialTx
  | .call buf => some { u with
      calls := ⟨u.bufs.length, buf, .check⟩ :: u.calls
      bufs := u.bufs ++ [buf] }
  | .tick => match u.calls with
    | [] => none
    | c :: cs => u.tickStep depth c cs
  | .shift => match u.fifo with
    | [] => none
    | byte :: rest => some { u with fifo := rest, line := u.line ++ [byte] }

/-- A call comes only where fewer than `m` are in progress. -/
def Within (m : ℕ) (u : SerialTx) : TxEvent → Prop
  | .call _ => u.calls.length < m
  | _ => True

/-- Nothing that was handed to the transmitter is lost: it has been sent, or is
queued, in the order in which it was handed over. -/
def Lossless (u : SerialTx) : Prop := u.line ++ u.fifo = u.written.map Prod.snd

/-- The calls that wrote, in order. -/
def ids (u : SerialTx) : List ℕ := u.written.map Prod.fst

/-- What was given to a call is what it has written and `rest`. -/
def Left (u : SerialTx) (id : ℕ) (rest : List UInt8) : Prop :=
  u.bufs[id]? = some ((u.written.filter fun p => p.1 = id).map Prod.snd ++ rest)

end SerialTx

/-! ### What comes later -/

/-- The last element of a sublist is the last one of the list, or is in what
comes before. -/
theorem sublist_concat {α : Type*} {l r : List α} {a b : α} (h : (l ++ [a]).Sublist (r ++ [b])) :
    (l ++ [a]).Sublist r ∨ (a = b ∧ l.Sublist r) := by
  obtain ⟨l₁, l₂, he, h₁, h₂⟩ := List.sublist_append_iff.mp h
  rcases List.sublist_singleton.mp h₂ with rfl | rfl
  · rw [List.append_nil] at he
    exact Or.inl (he ▸ h₁)
  · obtain ⟨rfl, hab⟩ := List.append_inj' he rfl
    exact Or.inr ⟨List.singleton_inj.mp hab, h₁⟩

namespace SerialTx

/-- The innermost call is the latest one; a call has no byte after one of an
earlier call; and what each call was given is what it wrote, and what is left. -/
structure Written (u : SerialTx) : Prop where
  sorted : u.calls.Pairwise fun c d => d.id < c.id
  lt : ∀ c ∈ u.calls, c.id < u.bufs.length
  wrote : ∀ id ∈ u.ids, id < u.bufs.length
  ahead : ∀ c ∈ u.calls, ∀ i < c.id, ¬[c.id, i].Sublist u.ids
  nested : ∀ i j, i < j → ¬[j, i, j].Sublist u.ids
  left : ∀ c ∈ u.calls, u.Left c.id c.buf
  done : ∀ id < u.bufs.length, (∀ c ∈ u.calls, c.id ≠ id) → u.Left id []

theorem init_written : Written init := by
  refine ⟨List.Pairwise.nil, ?_, ?_, ?_, fun i j _ => by simp [ids, init], ?_, ?_⟩ <;>
    simp [init, ids]

variable {u u' : SerialTx}

theorem Written.call (h : u.Written) (buf : List UInt8) :
    Written { u with calls := ⟨u.bufs.length, buf, .check⟩ :: u.calls, bufs := u.bufs ++ [buf] } := by
  have hkeep : ∀ id < u.bufs.length, ∀ rest, u.Left id rest →
      Left { u with calls := ⟨u.bufs.length, buf, .check⟩ :: u.calls, bufs := u.bufs ++ [buf] }
        id rest := fun id hid rest hl => by
    unfold Left at *
    rw [← hl]
    exact List.getElem?_append_left hid
  have hnew : (u.written.filter fun p => p.1 = u.bufs.length) = [] := by
    refine List.filter_eq_nil_iff.mpr fun p hp => ?_
    have hlt := h.wrote p.1 (List.mem_map.mpr ⟨p, hp, rfl⟩)
    simpa using Nat.ne_of_lt hlt
  have hlen : (u.bufs ++ [buf]).length = u.bufs.length + 1 := by simp
  refine ⟨List.pairwise_cons.mpr ⟨h.lt, h.sorted⟩, fun c hc => ?_, fun id hid => ?_, fun c hc => ?_,
    h.nested, fun c hc => ?_, fun id hid hno => ?_⟩
  · show c.id < (u.bufs ++ [buf]).length
    rw [hlen]
    rcases List.mem_cons.mp hc with rfl | hc
    · exact Nat.lt_succ_self _
    · exact Nat.lt_succ_of_lt (h.lt c hc)
  · show id < (u.bufs ++ [buf]).length
    rw [hlen]
    exact Nat.lt_succ_of_lt (h.wrote id hid)
  · rcases List.mem_cons.mp hc with rfl | hc
    · intro i hi hsub
      exact Nat.lt_irrefl _ (h.wrote _ (hsub.subset List.mem_cons_self))
    · exact h.ahead c hc
  · rcases List.mem_cons.mp hc with rfl | hc
    · unfold Left
      simp [hnew]
    · exact hkeep c.id (h.lt c hc) c.buf (h.left c hc)
  · have hid : id < (u.bufs ++ [buf]).length := hid
    rw [hlen] at hid
    have hne : u.bufs.length ≠ id := hno ⟨u.bufs.length, buf, .check⟩ List.mem_cons_self
    have hlt : id < u.bufs.length := by omega
    exact hkeep id hlt [] (h.done id hlt fun c hc => hno c (List.mem_cons_of_mem _ hc))

/-- What a call has written, after one more byte. -/
theorem written_concat (w : List (ℕ × UInt8)) (k id : ℕ) (b : UInt8) :
    ((w ++ [(k, b)]).filter fun p => p.1 = id).map Prod.snd =
      (w.filter fun p => p.1 = id).map Prod.snd ++ if k = id then [b] else [] := by
  rw [List.filter_append, List.map_append]
  by_cases hk : k = id
  · simp [hk]
  · simp [hk]

/-- The innermost call hands over a byte. -/
theorem Written.put (h : u.Written) {depth : ℕ} {c : TxCall} {cs : List TxCall} {byte : UInt8}
    {rest : List UInt8} (hcalls : u.calls = c :: cs) (hbuf : c.buf = byte :: rest) :
    Written { u.setThr depth byte with
      calls := { c with buf := rest, pc := .check } :: cs
      written := u.written ++ [(c.id, byte)] } := by
  have hbufs : (u.setThr depth byte).bufs = u.bufs := by
    unfold setThr
    split <;> rfl
  have hsorted := h.sorted
  rw [hcalls] at hsorted
  have hbelow : ∀ d ∈ cs, d.id < c.id := (List.pairwise_cons.mp hsorted).1
  have hle : ∀ d ∈ u.calls, d.id ≤ c.id := fun d hd => by
    rw [hcalls] at hd
    rcases List.mem_cons.mp hd with rfl | hd
    · exact Nat.le_refl _
    · exact Nat.le_of_lt (hbelow d hd)
  have hc : c ∈ u.calls := by
    rw [hcalls]
    exact List.mem_cons_self
  have hmem : ∀ d ∈ cs, d ∈ u.calls := fun d hd => by
    rw [hcalls]
    exact List.mem_cons_of_mem c hd
  have hother : ∀ id, c.id ≠ id → ∀ r, u.Left id r →
      Left { u.setThr depth byte with
        calls := { c with buf := rest, pc := .check } :: cs
        written := u.written ++ [(c.id, byte)] } id r := fun id hne r hl => by
    unfold Left at *
    rw [written_concat, if_neg hne, List.append_nil, hbufs]
    exact hl
  refine ⟨?_, fun d hd => ?_, fun id hid => ?_, fun d hd i hi hsub => ?_, fun i j hij hsub => ?_,
    fun d hd => ?_, fun id hid hno => ?_⟩
  · exact List.pairwise_cons.mpr ⟨hbelow, (List.pairwise_cons.mp hsorted).2⟩
  · show d.id < (u.setThr depth byte).bufs.length
    rw [hbufs]
    rcases List.mem_cons.mp hd with rfl | hd
    · exact h.lt c hc
    · exact h.lt d (hmem d hd)
  · show id < (u.setThr depth byte).bufs.length
    rw [hbufs]
    have hid : id ∈ (u.written ++ [(c.id, byte)]).map Prod.fst := hid
    rw [List.map_append] at hid
    rcases List.mem_append.mp hid with hid | hid
    · exact h.wrote id hid
    · rw [List.mem_singleton.mp hid]
      exact h.lt c hc
  · -- an earlier call does not write before `c` has returned
    have hd' : ∃ e ∈ u.calls, e.id = d.id := by
      rcases List.mem_cons.mp hd with rfl | hd
      · exact ⟨c, hc, rfl⟩
      · exact ⟨d, hmem d hd, rfl⟩
    obtain ⟨e, he, heid⟩ := hd'
    have hsub : ([d.id] ++ [i]).Sublist (u.ids ++ [c.id]) := by
      simpa [ids] using hsub
    rcases sublist_concat hsub with hsub | ⟨rfl, -⟩
    · exact h.ahead e he i (heid ▸ hi) (by rw [heid]; exact hsub)
    · have := hle e he
      omega
  · have hsub : ([j, i] ++ [j]).Sublist (u.ids ++ [c.id]) := by
      simpa [ids] using hsub
    rcases sublist_concat hsub with hsub | ⟨rfl, hsub⟩
    · exact h.nested i j hij hsub
    · exact h.ahead c hc i hij hsub
  · rcases List.mem_cons.mp hd with rfl | hd
    · have hl := h.left c hc
      unfold Left at hl ⊢
      rw [written_concat, if_pos rfl, List.append_assoc, hbufs, List.singleton_append, ← hbuf]
      exact hl
    · exact hother d.id (Nat.ne_of_gt (hbelow d hd)) d.buf (h.left d (hmem d hd))
  · have hid : id < (u.setThr depth byte).bufs.length := hid
    rw [hbufs] at hid
    have hne : c.id ≠ id := hno { c with buf := rest, pc := .check } List.mem_cons_self
    refine hother id hne [] (h.done id hid fun d hd => ?_)
    rw [hcalls] at hd
    rcases List.mem_cons.mp hd with rfl | hd
    · exact hne
    · exact hno d (List.mem_cons_of_mem _ hd)

/-- What `tick` does. -/
inductive TickNext (depth : ℕ) (u : SerialTx) (c : TxCall) (cs : List TxCall) : SerialTx → Prop
  | ret : c.buf = [] → TickNext depth u c cs { u with calls := cs }
  | empty {byte : UInt8} {rest : List UInt8} : c.buf = byte :: rest → u.fifo = [] →
      TickNext depth u c cs { u with calls := { c with pc := .put } :: cs }
  | spin : TickNext depth u c cs u
  | put {byte : UInt8} {rest : List UInt8} : c.pc = .put → c.buf = byte :: rest →
      TickNext depth u c cs { u.setThr depth byte with
        calls := { c with buf := rest, pc := .check } :: cs
        written := u.written ++ [(c.id, byte)] }

theorem tickStep_next {depth : ℕ} {c : TxCall} {cs : List TxCall}
    (h : u.tickStep depth c cs = some u') : TickNext depth u c cs u' := by
  unfold tickStep at h
  split at h
  · rename_i hbuf
    rw [← Option.some.inj h]
    exact .ret hbuf
  · rename_i hbuf
    split at h
    · rename_i hfifo
      rw [← Option.some.inj h]
      exact .empty hbuf hfifo
    · rw [← Option.some.inj h]
      exact .spin
  · cases h
  · rename_i hpc hbuf
    rw [← Option.some.inj h]
    exact .put hpc hbuf

/-- The innermost call changes its `pc`. -/
theorem Written.setPc (h : u.Written) {c : TxCall} {cs : List TxCall} (hcalls : u.calls = c :: cs)
    (pc : TxPc) : Written { u with calls := { c with pc } :: cs } := by
  have hsame : ∀ d ∈ ({ c with pc } :: cs : List TxCall), ∃ e ∈ u.calls, e.id = d.id ∧ e.buf = d.buf := by
    intro d hd
    rw [hcalls]
    rcases List.mem_cons.mp hd with rfl | hd
    · exact ⟨c, List.mem_cons_self, rfl, rfl⟩
    · exact ⟨d, List.mem_cons_of_mem c hd, rfl, rfl⟩
  have hsorted := h.sorted
  rw [hcalls] at hsorted
  refine ⟨List.pairwise_cons.mpr (List.pairwise_cons.mp hsorted), fun d hd => ?_, h.wrote,
    fun d hd => ?_, h.nested, fun d hd => ?_, fun id hid hno => h.done id hid fun d hd => ?_⟩
  · obtain ⟨e, he, hid, -⟩ := hsame d hd
    exact hid ▸ h.lt e he
  · obtain ⟨e, he, hid, -⟩ := hsame d hd
    exact hid ▸ h.ahead e he
  · obtain ⟨e, he, hid, hbuf⟩ := hsame d hd
    exact hid ▸ hbuf ▸ h.left e he
  · rw [hcalls] at hd
    rcases List.mem_cons.mp hd with rfl | hd
    · exact hno { d with pc } List.mem_cons_self
    · exact hno d (List.mem_cons_of_mem _ hd)

/-- The innermost call returns. -/
theorem Written.ret (h : u.Written) {c : TxCall} {cs : List TxCall} (hcalls : u.calls = c :: cs)
    (hbuf : c.buf = []) : Written { u with calls := cs } := by
  have hmem : ∀ d ∈ cs, d ∈ u.calls := fun d hd => by
    rw [hcalls]
    exact List.mem_cons_of_mem c hd
  have hsorted := h.sorted
  rw [hcalls] at hsorted
  refine ⟨(List.pairwise_cons.mp hsorted).2, fun d hd => h.lt d (hmem d hd), h.wrote,
    fun d hd => h.ahead d (hmem d hd), h.nested, fun d hd => h.left d (hmem d hd),
    fun id hid hno => ?_⟩
  by_cases hc : c.id = id
  · have hl := h.left c (by rw [hcalls]; exact List.mem_cons_self)
    rw [hbuf, hc] at hl
    exact hl
  · refine h.done id hid fun d hd => ?_
    rw [hcalls] at hd
    rcases List.mem_cons.mp hd with rfl | hd
    · exact hc
    · exact hno d hd

theorem Written.next {depth : ℕ} {ev : TxEvent} (h : u.Written) (hs : step depth u ev = some u') :
    u'.Written := by
  cases ev with
  | call buf =>
    rw [← Option.some.inj hs]
    exact h.call buf
  | shift =>
    unfold step at hs
    simp only at hs
    split at hs
    · cases hs
    · rw [← Option.some.inj hs]
      exact ⟨h.sorted, h.lt, h.wrote, h.ahead, h.nested, h.left, h.done⟩
  | tick =>
    unfold step at hs
    simp only at hs
    split at hs
    · cases hs
    · rename_i c cs hcalls
      cases tickStep_next hs with
      | ret hbuf => exact h.ret hcalls hbuf
      | empty => exact h.setPc hcalls .put
      | spin => exact h
      | put _ hbuf => exact h.put hcalls hbuf

/-! ### Room in the transmitter -/

/-- The calls that have seen the transmitter empty. -/
def passed (u : SerialTx) : ℕ := u.calls.countP fun c => c.pc = .put

/-- A byte is queued, or a call is about to queue it, for at most each of the
`m` calls that can be in progress. -/
structure Room (m : ℕ) (u : SerialTx) : Prop where
  calls : u.calls.length ≤ m
  room : u.fifo.length + u.passed ≤ m
  lossless : u.Lossless

theorem init_room (m : ℕ) : Room m init := ⟨Nat.zero_le m, Nat.zero_le m, rfl⟩

theorem Room.put {m depth : ℕ} (h : Room m u) (hm : m ≤ depth) {c : TxCall} {cs : List TxCall}
    (hcalls : u.calls = c :: cs) (hpc : c.pc = .put) {byte : UInt8} {rest : List UInt8} :
    Room m { u.setThr depth byte with
      calls := { c with buf := rest, pc := .check } :: cs
      written := u.written ++ [(c.id, byte)] } := by
  have hroom := h.room
  have hlen := h.calls
  have hpassed : u.passed = cs.countP (fun c => c.pc = .put) + 1 := by
    unfold passed
    rw [hcalls, List.countP_cons_of_pos (by simpa using hpc)]
  have hpassed' : passed { u.setThr depth byte with
      calls := { c with buf := rest, pc := .check } :: cs
      written := u.written ++ [(c.id, byte)] } = cs.countP fun c => c.pc = .put := by
    unfold passed
    rw [List.countP_cons_of_neg (by simp)]
  have hlt : u.fifo.length < depth := by omega
  have hset : u.setThr depth byte = { u with fifo := u.fifo ++ [byte] } := if_pos hlt
  refine ⟨?_, ?_, ?_⟩
  · rw [hcalls] at hlen
    exact hlen
  · rw [hpassed', hset]
    show (u.fifo ++ [byte]).length + _ ≤ m
    rw [List.length_append, List.length_singleton]
    omega
  · have hsound := h.lossless
    unfold Lossless at hsound ⊢
    rw [hset]
    simp [← hsound]

theorem Room.next {m depth : ℕ} {ev : TxEvent} (h : Room m u) (hm : m ≤ depth) (hok : u.Within m ev)
    (hs : step depth u ev = some u') : Room m u' := by
  have hroom := h.room
  have hlen := h.calls
  cases ev with
  | call buf =>
    rw [← Option.some.inj hs]
    refine ⟨hok, ?_, h.lossless⟩
    show u.fifo.length + List.countP _ (_ :: u.calls) ≤ m
    rw [List.countP_cons_of_neg (by simp)]
    exact hroom
  | shift =>
    unfold step at hs
    simp only at hs
    split at hs
    · cases hs
    · rename_i byte rest hfifo
      rw [← Option.some.inj hs]
      refine ⟨hlen, ?_, ?_⟩
      · rw [hfifo, List.length_cons] at hroom
        show rest.length + u.passed ≤ m
        omega
      · have hsound := h.lossless
        unfold Lossless at hsound ⊢
        rw [← hsound, hfifo]
        simp
  | tick =>
    unfold step at hs
    simp only at hs
    split at hs
    · cases hs
    · rename_i c cs hcalls
      cases tickStep_next hs with
      | ret hbuf =>
        have hcount : cs.countP (fun c => c.pc = .put) ≤ u.passed := by
          unfold passed
          rw [hcalls, List.countP_cons]
          exact Nat.le_add_right _ _
        rw [hcalls, List.length_cons] at hlen
        refine ⟨Nat.le_of_succ_le hlen, ?_, h.lossless⟩
        show u.fifo.length + cs.countP (fun c => c.pc = .put) ≤ m
        omega
      | @empty byte rest hbuf hfifo =>
        refine ⟨?_, ?_, h.lossless⟩
        · rw [hcalls] at hlen
          exact hlen
        · -- every call in progress may have passed now, but nothing is queued
          rw [hcalls] at hlen
          show u.fifo.length + List.countP _ _ ≤ m
          rw [hfifo, List.length_nil, Nat.zero_add]
          exact Nat.le_trans List.countP_le_length hlen
      | spin => exact h
      | put hpc hbuf => exact h.put hm hcalls hpc

/-! ### One writer too many -/

/-- `n` nested calls of one byte, each of which has seen the transmitter empty
before the next one came. -/
def stack : ℕ → List TxCall
  | 0 => []
  | n + 1 => ⟨n, [0], .put⟩ :: stack n

theorem length_stack (n : ℕ) : (stack n).length = n := by
  induction n with
  | zero => rfl
  | succ n ih => rw [stack, List.length_cons, ih]

theorem steps_stack (depth : ℕ) {m : ℕ} : ∀ n ≤ m, ∃ u, Steps (step depth) (Within m) init u ∧
    u.calls = stack n ∧ u.bufs.length = n ∧ u.fifo = [] ∧ u.line = [] ∧ u.written = []
  | 0, _ => ⟨init, .refl init, rfl, rfl, rfl, rfl, rfl⟩
  | n + 1, hn => by
    obtain ⟨u, hu, hcalls, hbufs, hfifo, hline, hw⟩ := steps_stack depth n (Nat.le_of_succ_le hn)
    have hroom : u.Within m (.call [0]) := by
      show u.calls.length < m
      rw [hcalls, length_stack]
      exact hn
    have hcall := hu.tail hroom rfl
    have hcheck : Steps (step depth) (Within m) init { u with
        calls := ⟨n, [0], .put⟩ :: u.calls
        bufs := u.bufs ++ [[0]] } :=
      hcall.tail (e := .tick) trivial (by simp [step, tickStep, hfifo, hbufs])
    refine ⟨_, hcheck, ?_, ?_, hfifo, hline, hw⟩
    · rw [stack, ← hcalls]
    · simp [hbufs]

/-- The `n` calls hand over their bytes and return, and nothing is sent. -/
theorem steps_put {depth m : ℕ} : ∀ n {u : SerialTx}, Steps (step depth) (Within m) init u →
    u.calls = stack n → ∃ u', Steps (step depth) (Within m) init u' ∧ u'.line = u.line ∧
      (u.fifo.length ≤ depth → u'.fifo.length ≤ depth) ∧
      u'.written.length = u.written.length + n
  | 0, u, hu, _ => ⟨u, hu, rfl, id, rfl⟩
  | n + 1, u, hu, hcalls => by
    have hput : Steps (step depth) (Within m) init { u.setThr depth 0 with
        calls := ⟨n, [], .check⟩ :: stack n
        written := u.written ++ [(n, 0)] } :=
      hu.tail (e := .tick) trivial (by simp [step, hcalls, stack, tickStep])
    have hret : Steps (step depth) (Within m) init { u.setThr depth 0 with
        calls := stack n
        written := u.written ++ [(n, 0)] } :=
      hput.tail (e := .tick) trivial (by simp [step, tickStep])
    obtain ⟨u', hu', hline, hfifo, hw⟩ := steps_put n hret rfl
    refine ⟨u', hu', ?_, fun hle => hfifo ?_, ?_⟩
    · rw [hline]
      unfold setThr
      split <;> rfl
    · show (u.setThr depth 0).fifo.length ≤ depth
      unfold setThr
      split
      · rename_i hlt
        simpa using Nat.succ_le_of_lt hlt
      · exact hle
    · rw [hw, List.length_append, List.length_singleton]
      omega

/-- Nothing was sent, and more was handed over than fits. -/
theorem exists_lossy {depth m : ℕ} (h : depth < m) :
    ∃ u, Steps (step depth) (Within m) init u ∧ ¬u.Lossless := by
  obtain ⟨u, hu, hcalls, -, hfifo, hline, hw⟩ := steps_stack depth m (Nat.le_refl m)
  obtain ⟨u', hu', hline', hle, hlen⟩ := steps_put m hu hcalls
  refine ⟨u', hu', fun hsound => ?_⟩
  have hcount := congrArg List.length hsound
  have hfits := hle (by simp [hfifo])
  rw [hline', hline, List.nil_append, List.length_map, hlen, hw, List.length_nil] at hcount
  omega

/-! ### The writers -/

/-- Each call has written the beginning of what it was given, and all of it
unless it is in progress; and between two bytes of a call there are no bytes
of an earlier one. -/
structure InOrder (u : SerialTx) : Prop where
  prefixes : ∀ id buf, u.bufs[id]? = some buf →
    ∃ rest, buf = (u.written.filter fun p => p.1 = id).map Prod.snd ++ rest ∧
      (rest = [] ∨ ∃ c ∈ u.calls, c.id = id ∧ c.buf = rest)
  nested : ∀ i j, i < j → ¬[j, i, j].Sublist (u.written.map Prod.fst)

theorem Written.inOrder (h : u.Written) : u.InOrder := by
  refine ⟨fun id buf hbuf => ?_, h.nested⟩
  have hid : id < u.bufs.length := (List.getElem?_eq_some_iff.mp hbuf).1
  by_cases hin : ∃ c ∈ u.calls, c.id = id
  · obtain ⟨c, hc, rfl⟩ := hin
    have hl := h.left c hc
    unfold Left at hl
    exact ⟨c.buf, Option.some.inj (hbuf.symm.trans hl), Or.inr ⟨c, hc, rfl, rfl⟩⟩
  · have hl := h.done id hid fun c hc he => hin ⟨c, hc, he⟩
    unfold Left at hl
    exact ⟨[], Option.some.inj (hbuf.symm.trans hl), Or.inl rfl⟩

/-- **Nested writers.** Wherever calls of `write` come while others are in
progress, each writes its bytes once and in order, and is interrupted only by
later calls as a whole. And with at most `m` calls in progress, no byte is
ever lost exactly when the transmitter queues at least `m`. -/
theorem writes (depth m : ℕ) :
    (∀ u, Steps (step depth) (Within m) init u → u.InOrder) ∧
      ((∀ u, Steps (step depth) (Within m) init u → u.Lossless) ↔ m ≤ depth) := by
  refine ⟨fun u hu => ?_, fun hall => ?_, fun hm u hu => ?_⟩
  · exact (hu.invariant (I := Written) (fun _ _ _ h _ hs => h.next hs) init_written).inOrder
  · by_contra hlt
    obtain ⟨u, hu, hlossy⟩ := exists_lossy (Nat.not_le.mp hlt)
    exact hlossy (hall u hu)
  · exact (hu.invariant (I := Room m) (fun _ _ _ h hok hs => h.next hm hok hs) (init_room m)).lossless

end SerialTx
end RtAsync

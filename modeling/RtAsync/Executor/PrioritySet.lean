/-
# The bitmap as a set of priorities

`PriorityBitmap` stands for a finite set: `set`, `clear`, `pop_highest` and
`clear_all` are what they should be on sets, and `highest` is the least member
(a lower number is a higher priority). The two levels agree in every state
that calls with priorities in range lead to, so `highest` never indexes out of
range.

Key definitions: `BitmapOp`, `PriorityBitmap.apply`, `BitmapOp.members`,
`PriorityBitmap.Holds`, `PriorityBitmap.pops`.
Key theorems: `Holds.apply`, `Holds.highest`, `Holds.pops`,
`PriorityBitmap.refines_finset`.
-/
import RtAsync.Executor.PriorityBitmap
import RtAsync.Lib.LeastFirst
import RtAsync.Lib.Transition

namespace RtAsync

open LeastFirst (least leasts popLeast)
open Transition (exec)

variable {G : ℕ}

/-- A call that changes the bitmap. -/
inductive BitmapOp
  | set (prio : ℕ)
  | clear (prio : ℕ)
  | popHighest
  | clearAll
  deriving DecidableEq, Repr

namespace BitmapOp

/-- The priorities of the call are below `CAPACITY`. -/
def InRange (G : ℕ) : BitmapOp → Prop
  | set prio => prio < G * 64
  | clear prio => prio < G * 64
  | _ => True

instance (op : BitmapOp) : Decidable (op.InRange G) := by
  cases op <;> unfold InRange <;> infer_instance

/-- What the call does to the set. -/
def members (s : Finset ℕ) : BitmapOp → Finset ℕ
  | set prio => insert prio s
  | clear prio => s.erase prio
  | popHighest => popLeast s
  | clearAll => ∅

/-- The set that the calls `ops` leave, from the empty one. -/
def membersAfter (ops : List BitmapOp) : Finset ℕ := ops.foldl members ∅

end BitmapOp

namespace PriorityBitmap

def apply (bm : PriorityBitmap G) : BitmapOp → Option (PriorityBitmap G)
  | .set prio => bm.set prio
  | .clear prio => bm.clear prio
  | .popHighest => bm.popHighest.map Prod.fst
  | .clearAll => some bm.clearAll

/-- What `n` calls of `pop_highest` return, and the bitmap they leave. -/
def pops : ℕ → PriorityBitmap G → Option (List (Option ℕ) × PriorityBitmap G)
  | 0, bm => some ([], bm)
  | n + 1, bm => bm.popHighest.bind fun (bm', prio) =>
    (pops n bm').map fun (prios, bm'') => (prio :: prios, bm'')

/-- The bitmap stands for the set `s`, and its levels agree. -/
structure Holds (bm : PriorityBitmap G) (s : Finset ℕ) : Prop where
  wf : bm.WF
  mem : ∀ p, bm.Mem p ↔ p ∈ s

theorem clearAll_eq_new (bm : PriorityBitmap G) : bm.clearAll = new G := rfl

theorem holds_new : (new G).Holds ∅ :=
  ⟨new_wf, fun p => iff_of_false (not_mem_new p) (Finset.notMem_empty p)⟩

/-- A priority in the set is in range. -/
theorem lt_of_mem {bm : PriorityBitmap G} {p : ℕ} (h : bm.Mem p) : p < G * 64 := by
  obtain ⟨hg, -⟩ := (mem_iff bm p).mp h
  omega

namespace Holds

variable {bm : PriorityBitmap G} {s : Finset ℕ}

theorem highest (h : bm.Holds s) : bm.highest = some (least s) := by
  have hsome := highest_isSome h.wf
  cases hh : bm.highest with
  | none =>
    rw [hh] at hsome
    cases hsome
  | some r =>
    cases r with
    | none =>
      have hempty : s = ∅ := Finset.eq_empty_of_forall_notMem fun p hp =>
        highest_eq_none h.wf hh p ((h.mem p).mpr hp)
      rw [LeastFirst.least_eq_none.mpr hempty]
    | some p =>
      obtain ⟨hp, hle⟩ := highest_least h.wf hh
      have hleast : least s = some p :=
        LeastFirst.least_eq_some.mpr ⟨(h.mem p).mp hp, fun q hq => hle q ((h.mem q).mpr hq)⟩
      rw [hleast]

theorem isEmpty (h : bm.Holds s) : bm.isEmpty = true ↔ s = ∅ := by
  rw [← LeastFirst.least_eq_none, PriorityBitmap.isEmpty, decide_eq_true_iff]
  have hh := h.highest
  unfold PriorityBitmap.highest at hh
  by_cases h0 : bm.groupMap = 0#64
  · rw [if_pos h0, Option.some.injEq] at hh
    simp [h0, ← hh]
  · rw [if_neg h0] at hh
    simp only at hh
    split at hh
    · rw [Option.some.injEq] at hh
      simp [h0, ← hh]
    · cases hh

theorem isSet (h : bm.Holds s) {p : ℕ} (hp : p < G * 64) : bm.isSet p = some (decide (p ∈ s)) := by
  have hg : p / 64 < G := by omega
  have hmem := h.mem p
  unfold Mem at hmem
  unfold PriorityBitmap.isSet at hmem ⊢
  rw [dif_pos hg] at hmem ⊢
  simp only [Option.some.injEq] at hmem ⊢
  rw [Bool.eq_iff_iff, hmem, decide_eq_true_iff]

theorem set (h : bm.Holds s) (hG : G ≤ 64) {bm' : PriorityBitmap G} {p : ℕ}
    (hs : bm.set p = some bm') : bm'.Holds (insert p s) := by
  refine ⟨set_wf hG h.wf hs, fun q => ?_⟩
  rw [mem_set hs, h.mem, Finset.mem_insert]

theorem clear (h : bm.Holds s) (hG : G ≤ 64) {bm' : PriorityBitmap G} {p : ℕ}
    (hs : bm.clear p = some bm') : bm'.Holds (s.erase p) := by
  refine ⟨clear_wf hG h.wf hs, fun q => ?_⟩
  rw [mem_clear hs, h.mem, Finset.mem_erase]

/-- `pop_highest` gives the least member and leaves the others. -/
theorem popHighest (h : bm.Holds s) (hG : G ≤ 64) :
    ∃ bm', bm.popHighest = some (bm', least s) ∧ bm'.Holds (popLeast s) := by
  unfold PriorityBitmap.popHighest
  rw [h.highest]
  cases hl : least s with
  | none => exact ⟨bm, rfl, by rwa [LeastFirst.popLeast_of_none hl]⟩
  | some p =>
    have hp : bm.Mem p := (h.mem p).mpr (LeastFirst.least_eq_some.mp hl).1
    obtain ⟨bm', hbm'⟩ := Option.isSome_iff_exists.mp (bm.clear_isSome (lt_of_mem hp))
    refine ⟨bm', by simp [hbm'], ?_⟩
    rw [LeastFirst.popLeast_of_some hl]
    exact h.clear hG hbm'

/-- A call with priorities in range does not panic, and does what it should. -/
theorem apply (h : bm.Holds s) (hG : G ≤ 64) {op : BitmapOp} (hop : op.InRange G) :
    ∃ bm', bm.apply op = some bm' ∧ bm'.Holds (op.members s) := by
  cases op with
  | set p =>
    obtain ⟨bm', hbm'⟩ := Option.isSome_iff_exists.mp (bm.set_isSome hop)
    exact ⟨bm', hbm', h.set hG hbm'⟩
  | clear p =>
    obtain ⟨bm', hbm'⟩ := Option.isSome_iff_exists.mp (bm.clear_isSome hop)
    exact ⟨bm', hbm', h.clear hG hbm'⟩
  | popHighest =>
    obtain ⟨bm', hbm', hpop⟩ := h.popHighest hG
    exact ⟨bm', by simp [PriorityBitmap.apply, hbm'], hpop⟩
  | clearAll => exact ⟨bm.clearAll, rfl, clearAll_eq_new bm ▸ holds_new⟩

/-- `n` calls of `pop_highest` give the `n` least members, in order. -/
theorem pops (hG : G ≤ 64) : ∀ (n : ℕ) {bm : PriorityBitmap G} {s : Finset ℕ}, bm.Holds s →
    ∃ bm', bm.pops n = some (leasts n s, bm') ∧ bm'.Holds (popLeast^[n] s)
  | 0, bm, _, h => ⟨bm, rfl, h⟩
  | n + 1, bm, s, h => by
    obtain ⟨bm₁, hpop, h₁⟩ := h.popHighest hG
    obtain ⟨bm₂, hpops, h₂⟩ := pops hG n h₁
    refine ⟨bm₂, ?_, by rwa [Function.iterate_succ_apply]⟩
    rw [PriorityBitmap.pops, hpop, Option.bind_some]
    simp only [hpops, Option.map_some, leasts]

/-- A run of calls with priorities in range. -/
theorem exec (hG : G ≤ 64) : ∀ (ops : List BitmapOp) {bm : PriorityBitmap G} {s : Finset ℕ},
    bm.Holds s → (∀ op ∈ ops, op.InRange G) →
    ∃ bm', Transition.exec PriorityBitmap.apply bm ops = some bm' ∧
      bm'.Holds (ops.foldl BitmapOp.members s)
  | [], bm, _, h, _ => ⟨bm, rfl, h⟩
  | op :: ops, bm, s, h, hops => by
    obtain ⟨bm₁, happ, h₁⟩ := h.apply hG (hops op List.mem_cons_self)
    obtain ⟨bm₂, hexec, h₂⟩ := exec hG ops h₁ fun o ho => hops o (List.mem_cons_of_mem op ho)
    exact ⟨bm₂, by rw [Transition.exec_cons, happ, Option.bind_some, hexec], h₂⟩

end Holds

/-- **The bitmap refines a finite set of priorities.** Calls with priorities
in range do not panic. After them a bit of `group_map` is set exactly for the
groups in range that are not empty, `is_set` and `is_empty` read the set that
the calls leave, `highest` is its least member, and `n` calls of `pop_highest`
return its `n` least members in increasing order, then `None`, and leave it
empty once all are out. -/
theorem refines_finset (hG : G ≤ 64) (ops : List BitmapOp) (hops : ∀ op ∈ ops, op.InRange G) :
    ∃ bm, exec apply (new G) ops = some bm ∧
      (∀ g, bm.groupMap.getLsbD g = true ↔ ∃ h : g < G, bm.groupTable[g] ≠ 0#64) ∧
      (∀ p ∈ BitmapOp.membersAfter ops, p < G * 64) ∧
      (∀ p < G * 64, bm.isSet p = some (decide (p ∈ BitmapOp.membersAfter ops))) ∧
      (bm.isEmpty = true ↔ BitmapOp.membersAfter ops = ∅) ∧
      (bm.highest = some none ↔ BitmapOp.membersAfter ops = ∅) ∧
      (∀ p, bm.highest = some (some p) ↔ p ∈ BitmapOp.membersAfter ops ∧
        ∀ q ∈ BitmapOp.membersAfter ops, p ≤ q) ∧
      bm.highest.isSome ∧
      ∀ n, ∃ bm', bm.pops n =
          some (((BitmapOp.membersAfter ops).sort.take n).map some ++
            List.replicate (n - (BitmapOp.membersAfter ops).card) none, bm') ∧
        ((BitmapOp.membersAfter ops).card ≤ n → bm'.isEmpty = true) := by
  obtain ⟨bm, hexec, h⟩ := Holds.exec hG ops holds_new hops
  have h : bm.Holds (BitmapOp.membersAfter ops) := h
  refine ⟨bm, hexec, h.wf, fun p hp => lt_of_mem ((h.mem p).mpr hp), fun p hp => h.isSet hp,
    h.isEmpty, ?_, fun p => ?_, highest_isSome h.wf, fun n => ?_⟩
  · rw [h.highest, Option.some.injEq, LeastFirst.least_eq_none]
  · rw [h.highest, Option.some.injEq, LeastFirst.least_eq_some]
  · obtain ⟨bm', hpops, h'⟩ := Holds.pops hG n h
    refine ⟨bm', by rw [hpops, LeastFirst.leasts_eq], fun hn => ?_⟩
    rw [h'.isEmpty, ← Finset.card_eq_zero, LeastFirst.card_popLeast_iterate]
    omega

/-- Four groups, with priorities on both sides of their boundaries. -/
theorem refines_finset_four : ∃ bm : PriorityBitmap 4,
    exec apply (new 4) [.set 64, .set 255, .set 63, .set 128, .clear 128] = some bm ∧
      bm.highest.isSome := by
  obtain ⟨bm, hexec, -, -, -, -, -, -, hsome, -⟩ := refines_finset (G := 4) (by decide)
    [.set 64, .set 255, .set 63, .set 128, .clear 128] (by decide)
  exact ⟨bm, hexec, hsome⟩

end PriorityBitmap
end RtAsync

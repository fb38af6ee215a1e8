/-
# Straight-line RV64 code over a byte memory

The integer registers, the bytes of memory and two control registers of a
hart, and the instructions that a context switch is made of. A call is a
relation between the state at the entry of the routine and the state at its
return. The lemmas are about blocks: a list of doublewords stored relative to
one base, and a list of registers loaded back from it.

Key definitions: `Hart`, `Instr`, `ReachesMret`, `storeAll`, `Apart`.
Key theorems: `ld_sd_self`, `ld_sd_apart`, `ld_storeAll`, `storeAll_outside`,
`run_stores`, `run_loads`, `reachesMret_append`.
-/
import Mathlib.Algebra.GroupWithZero.Nat
import Mathlib.Data.List.Nodup
import Mathlib.Data.Nat.Notation
import Mathlib.Logic.Function.Basic
import Mathlib.Tactic.SplitIfs

namespace Rv64

open Function (update update_self update_of_ne)

abbrev Word := BitVec 64

abbrev Reg := Fin 32

instance neZero_regs : NeZero 32 := ⟨by decide⟩

abbrev Memory := Word → BitVec 8

/-- The address `off` bytes above a base. -/
abbrev Word.plus (base : Word) (off : ℕ) : Word := base + BitVec.ofNat 64 off

/-! ### Doublewords -/

/-- Store a doubleword, low byte first. -/
def sd (m : Memory) (a v : Word) : Memory := fun b =>
  if (b - a).toNat < 8 then v.extractLsb' (8 * (b - a).toNat) 8 else m b

/-- Load a doubleword. -/
def ld (m : Memory) (a : Word) : Word :=
  m (a.plus 7) ++ m (a.plus 6) ++ m (a.plus 5) ++ m (a.plus 4) ++ m (a.plus 3) ++ m (a.plus 2) ++
    m (a.plus 1) ++ m (a.plus 0)

/-- No byte of the doubleword at `b` is a byte of the one at `a`. -/
def Apart (a b : Word) : Prop := ∀ k < 8, 8 ≤ (b.plus k - a).toNat

theorem sd_outside (m : Memory) {a b : Word} (v : Word) (h : 8 ≤ (b - a).toNat) :
    sd m a v b = m b := if_neg (Nat.not_lt.mpr h)

theorem sd_byte (m : Memory) (a v : Word) {k : ℕ} (hk : k < 8) :
    sd m a v (a.plus k) = v.extractLsb' (8 * k) 8 := by
  have hsub : (a.plus k - a).toNat = k := by
    rw [Word.plus, BitVec.add_comm, BitVec.add_sub_cancel, BitVec.toNat_ofNat]
    omega
  rw [sd, hsub, if_pos hk]

theorem ld_sd_self (m : Memory) (a v : Word) : ld (sd m a v) a = v := by
  unfold ld
  rw [sd_byte m a v (by decide), sd_byte m a v (by decide), sd_byte m a v (by decide),
    sd_byte m a v (by decide), sd_byte m a v (by decide), sd_byte m a v (by decide),
    sd_byte m a v (by decide), sd_byte m a v (by decide)]
  apply BitVec.eq_of_getLsbD_eq
  intro i hi
  simp only [BitVec.getLsbD_append, BitVec.getLsbD_extractLsb']
  have hbit : ∀ j b : ℕ, j < 8 → b + j = i →
      (decide (j < 8) && v.getLsbD (b + j)) = v.getLsbD i := by
    intro j b hj he
    rw [he, decide_eq_true hj, Bool.true_and]
  -- one case for each byte
  split_ifs <;> exact hbit _ _ (by omega) (by omega)

theorem ld_congr {m m' : Memory} {a : Word} (h : ∀ k < 8, m' (a.plus k) = m (a.plus k)) :
    ld m' a = ld m a := by
  unfold ld
  rw [h 7 (by decide), h 6 (by decide), h 5 (by decide), h 4 (by decide), h 3 (by decide),
    h 2 (by decide), h 1 (by decide), h 0 (by decide)]

/-- The byte at the address itself is the low byte. -/
theorem ld_low (m : Memory) (a : Word) : (ld m a).extractLsb' 0 8 = m (a.plus 0) :=
  BitVec.extractLsb'_append_eq_right

theorem ld_sd_apart (m : Memory) {a b : Word} (v : Word) (h : Apart a b) :
    ld (sd m a v) b = ld m b :=
  ld_congr fun k hk => sd_outside m v (h k hk)

theorem apart_of_offsets (base : Word) {i j : ℕ} (hi : i < 2 ^ 32) (hj : j < 2 ^ 32)
    (h : i + 8 ≤ j ∨ j + 8 ≤ i) : Apart (base.plus i) (base.plus j) := by
  intro k hk
  unfold Word.plus
  rw [BitVec.toNat_sub, BitVec.toNat_add, BitVec.toNat_add, BitVec.toNat_add, BitVec.toNat_ofNat,
    BitVec.toNat_ofNat, BitVec.toNat_ofNat]
  have := base.isLt
  omega

/-- Doublewords stored at offsets from one base, in order. -/
def storeAll (m : Memory) (base : Word) (l : List (ℕ × Word)) : Memory :=
  l.foldl (fun m p => sd m (base.plus p.1) p.2) m

/-- Offsets of doublewords that do not overlap. -/
def Spaced (l : List ℕ) : Prop :=
  l.Pairwise (fun i j => i + 8 ≤ j ∨ j + 8 ≤ i) ∧ ∀ i ∈ l, i < 2 ^ 32

instance (l : List ℕ) : Decidable (Spaced l) := inferInstanceAs (Decidable (_ ∧ _))

theorem Spaced.tail {i : ℕ} {l : List ℕ} (h : Spaced (i :: l)) : Spaced l :=
  ⟨(List.pairwise_cons.mp h.1).2, fun j hj => h.2 j (List.mem_cons_of_mem _ hj)⟩

/-- Stores at other offsets leave a doubleword alone. -/
theorem ld_storeAll_other (base : Word) : ∀ (l : List (ℕ × Word)) (m : Memory) {off : ℕ},
    Spaced (off :: l.map Prod.fst) → ld (storeAll m base l) (base.plus off) = ld m (base.plus off)
  | [], _, _, _ => rfl
  | p :: l, m, off, h => by
    have hpair := List.pairwise_cons.mp h.1
    have hskip : Spaced (off :: l.map Prod.fst) :=
      ⟨List.pairwise_cons.mpr ⟨fun j hj => hpair.1 j (List.mem_cons_of_mem _ hj),
        (List.pairwise_cons.mp hpair.2).2⟩, fun j hj => by
          rcases List.mem_cons.mp hj with rfl | hj
          · exact h.2 j List.mem_cons_self
          · exact h.2 j (List.mem_cons_of_mem _ (List.mem_cons_of_mem _ hj))⟩
    have happ : Apart (base.plus p.1) (base.plus off) :=
      apart_of_offsets base (h.2 p.1 (by simp)) (h.2 off (by simp)) (hpair.1 p.1 (by simp)).symm
    show ld (storeAll (sd m (base.plus p.1) p.2) base l) (base.plus off) = _
    rw [ld_storeAll_other base l _ hskip, ld_sd_apart m p.2 happ]

/-- Each doubleword of the block reads back. -/
theorem ld_storeAll (base : Word) : ∀ (l : List (ℕ × Word)) (m : Memory),
    Spaced (l.map Prod.fst) → ∀ p ∈ l, ld (storeAll m base l) (base.plus p.1) = p.2
  | [], _, _, p, hp => by cases hp
  | q :: l, m, h, p, hp => by
    show ld (storeAll (sd m (base.plus q.1) q.2) base l) (base.plus p.1) = p.2
    rcases List.mem_cons.mp hp with rfl | hp
    · rw [ld_storeAll_other base l _ h, ld_sd_self]
    · exact ld_storeAll base l _ h.tail p hp

/-- Bytes outside the block are left alone. -/
theorem storeAll_outside (base : Word) {a : Word} : ∀ (l : List (ℕ × Word)) (m : Memory),
    (∀ p ∈ l, 8 ≤ (a - base.plus p.1).toNat) → storeAll m base l a = m a
  | [], _, _ => rfl
  | p :: l, m, h => by
    show storeAll (sd m (base.plus p.1) p.2) base l a = m a
    rw [storeAll_outside base l _ fun q hq => h q (List.mem_cons_of_mem _ hq),
      sd_outside m p.2 (h p List.mem_cons_self)]

theorem storeAll_cons (m : Memory) (base : Word) (p : ℕ × Word) (l : List (ℕ × Word)) :
    storeAll m base (p :: l) = storeAll (sd m (base.plus p.1) p.2) base l := rfl

theorem storeAll_append (m : Memory) (base : Word) (l l' : List (ℕ × Word)) :
    storeAll m base (l ++ l') = storeAll (storeAll m base l) base l' := List.foldl_append

/-! ### The hart -/

structure Hart where
  x : Reg → Word
  mem : Memory
  mepc : Word
  mstatus : Word

namespace Hart

/-- `x0` reads zero. -/
def read (h : Hart) (r : Reg) : Word := if r = 0 then 0 else h.x r

def write (h : Hart) (r : Reg) (v : Word) : Hart := { h with x := update h.x r v }

def setMem (h : Hart) (m : Memory) : Hart := { h with mem := m }

def setMepc (h : Hart) (v : Word) : Hart := { h with mepc := v }

def setMstatus (h : Hart) (v : Word) : Hart := { h with mstatus := v }

theorem read_write_self (h : Hart) {r : Reg} (v : Word) (hr : r ≠ 0) : (h.write r v).read r = v := by
  simp only [read, write, if_neg hr, update_self]

theorem read_write_ne (h : Hart) {r r' : Reg} (v : Word) (hne : r' ≠ r) :
    (h.write r v).read r' = h.read r' := by
  simp only [read, write, update_of_ne hne]

@[simp] theorem write_mem (h : Hart) (r : Reg) (v : Word) : (h.write r v).mem = h.mem := rfl
@[simp] theorem write_mepc (h : Hart) (r : Reg) (v : Word) : (h.write r v).mepc = h.mepc := rfl
@[simp] theorem write_mstatus (h : Hart) (r : Reg) (v : Word) :
    (h.write r v).mstatus = h.mstatus := rfl
@[simp] theorem setMem_read (h : Hart) (m : Memory) (r : Reg) : (h.setMem m).read r = h.read r := rfl
@[simp] theorem setMem_mem (h : Hart) (m : Memory) : (h.setMem m).mem = m := rfl
@[simp] theorem setMem_mepc (h : Hart) (m : Memory) : (h.setMem m).mepc = h.mepc := rfl
@[simp] theorem setMem_mstatus (h : Hart) (m : Memory) : (h.setMem m).mstatus = h.mstatus := rfl
@[simp] theorem setMepc_read (h : Hart) (v : Word) (r : Reg) : (h.setMepc v).read r = h.read r := rfl
@[simp] theorem setMepc_mem (h : Hart) (v : Word) : (h.setMepc v).mem = h.mem := rfl
@[simp] theorem setMepc_mepc (h : Hart) (v : Word) : (h.setMepc v).mepc = v := rfl
@[simp] theorem setMepc_mstatus (h : Hart) (v : Word) : (h.setMepc v).mstatus = h.mstatus := rfl
@[simp] theorem setMstatus_read (h : Hart) (v : Word) (r : Reg) :
    (h.setMstatus v).read r = h.read r := rfl
@[simp] theorem setMstatus_mem (h : Hart) (v : Word) : (h.setMstatus v).mem = h.mem := rfl
@[simp] theorem setMstatus_mepc (h : Hart) (v : Word) : (h.setMstatus v).mepc = h.mepc := rfl
@[simp] theorem setMstatus_mstatus (h : Hart) (v : Word) : (h.setMstatus v).mstatus = v := rfl

end Hart

/-! ### Instructions -/

inductive Csr
  | mepc
  | mstatus
  deriving DecidableEq

inductive Instr
  | mv (rd rs : Reg)
  | addi (rd rs : Reg) (imm : Int)
  | andi (rd rs : Reg) (imm : Int)
  | sd (rs : Reg) (off : ℕ) (base : Reg)
  | ld (rd : Reg) (off : ℕ) (base : Reg)
  | csrr (rd : Reg) (csr : Csr)
  | csrw (csr : Csr) (rs : Reg)
  | call
  | mret
  deriving DecidableEq

namespace Instr

/-- What the instruction does before the next one; a call and `mret` leave the
block. -/
def step : Instr → Hart → Hart
  | mv rd rs, h => h.write rd (h.read rs)
  | addi rd rs imm, h => h.write rd (h.read rs + BitVec.ofInt 64 imm)
  | andi rd rs imm, h => h.write rd (h.read rs &&& BitVec.ofInt 64 imm)
  | sd rs off base, h => h.setMem (Rv64.sd h.mem ((h.read base).plus off) (h.read rs))
  | ld rd off base, h => h.write rd (Rv64.ld h.mem ((h.read base).plus off))
  | csrr rd .mepc, h => h.write rd h.mepc
  | csrr rd .mstatus, h => h.write rd h.mstatus
  | csrw .mepc rs, h => h.setMepc (h.read rs)
  | csrw .mstatus rs, h => h.setMstatus (h.read rs)
  | call, h => h
  | mret, h => h

def straight : Instr → Bool
  | call => false
  | mret => false
  | _ => true

end Instr

/-- A block of instructions, one after the other. -/
def run (is : List Instr) (h : Hart) : Hart := is.foldl (fun h i => i.step h) h

theorem run_nil (h : Hart) : run [] h = h := rfl

theorem run_cons (i : Instr) (is : List Instr) (h : Hart) : run (i :: is) h = run is (i.step h) := rfl

theorem run_append (is js : List Instr) (h : Hart) : run (is ++ js) h = run js (run is h) :=
  List.foldl_append

/-- The return address register. -/
def ra : Reg := 1

/-- `h'` is the state at the `mret` that the instructions reach from `h`, when
a call takes its entry state to a return state by `R`. The call writes some
return address. -/
def ReachesMret (R : Hart → Hart → Prop) : List Instr → Hart → Hart → Prop
  | [], _, _ => False
  | .mret :: _, h, h' => h' = h
  | .call :: is, h, h' => ∃ link g, R (h.write ra link) g ∧ ReachesMret R is g h'
  | i :: is, h, h' => ReachesMret R is (i.step h) h'

/-- The state in which the instructions make their first call. -/
def atCall : List Instr → Hart → Option Hart
  | [], _ => none
  | .call :: _, h => some h
  | .mret :: _, _ => none
  | i :: is, h => atCall is (i.step h)

theorem atCall_append : ∀ (is js : List Instr) (h : Hart), (∀ i ∈ is, i.straight = true) →
    atCall (is ++ js) h = atCall js (run is h)
  | [], _, _, _ => rfl
  | i :: is, js, h, hs => by
    have hi := hs i List.mem_cons_self
    have his : ∀ j ∈ is, j.straight = true := fun j hj => hs j (List.mem_cons_of_mem _ hj)
    cases i with
    | call => cases hi
    | mret => cases hi
    | _ => exact atCall_append is js _ his

theorem reachesMret_append {R : Hart → Hart → Prop} {h' : Hart} :
    ∀ (is js : List Instr) (h : Hart), (∀ i ∈ is, i.straight = true) →
      (ReachesMret R (is ++ js) h h' ↔ ReachesMret R js (run is h) h')
  | [], _, _, _ => Iff.rfl
  | i :: is, js, h, hs => by
    have hi := hs i List.mem_cons_self
    have his : ∀ j ∈ is, j.straight = true := fun j hj => hs j (List.mem_cons_of_mem _ hj)
    cases i with
    | call => cases hi
    | mret => cases hi
    | _ => exact reachesMret_append is js _ his

/-! ### Blocks of stores and loads -/

def stores (base : Reg) (l : List (Reg × ℕ)) : List Instr := l.map fun p => .sd p.1 p.2 base

def loads (base : Reg) (l : List (Reg × ℕ)) : List Instr := l.map fun p => .ld p.1 p.2 base

theorem run_stores (base : Reg) : ∀ (l : List (Reg × ℕ)) (h : Hart),
    run (stores base l) h =
      h.setMem (storeAll h.mem (h.read base) (l.map fun p => (p.2, h.read p.1)))
  | [], _ => rfl
  | p :: l, h => run_stores base l ((Instr.sd p.1 p.2 base).step h)

/-- Loads write their destinations and nothing else. -/
theorem run_loads (base : Reg) : ∀ (l : List (Reg × ℕ)) (h : Hart),
    base ∉ l.map Prod.fst → 0 ∉ l.map Prod.fst → (l.map Prod.fst).Nodup →
    (run (loads base l) h).mem = h.mem ∧ (run (loads base l) h).mepc = h.mepc ∧
      (run (loads base l) h).mstatus = h.mstatus ∧
      (∀ p ∈ l, (run (loads base l) h).read p.1 = ld h.mem ((h.read base).plus p.2)) ∧
      ∀ r ∉ l.map Prod.fst, (run (loads base l) h).read r = h.read r
  | [], h, _, _, _ => ⟨rfl, rfl, rfl, fun _ hp => (by cases hp), fun _ _ => rfl⟩
  | q :: l, h, hbase, hzero, hnd => by
    obtain ⟨hq, hnd⟩ := List.nodup_cons.mp hnd
    have hbq : base ≠ q.1 := fun he => hbase (by rw [he]; exact List.mem_cons_self)
    have hq0 : q.1 ≠ 0 := fun he => hzero (by rw [← he]; exact List.mem_cons_self)
    obtain ⟨hmem, hmepc, hmstatus, hin, hout⟩ := run_loads base l
      ((Instr.ld q.1 q.2 base).step h) (fun hb => hbase (List.mem_cons_of_mem _ hb))
      (fun hz => hzero (List.mem_cons_of_mem _ hz)) hnd
    have hread : ((Instr.ld q.1 q.2 base).step h).read base = h.read base :=
      h.read_write_ne _ hbq
    refine ⟨hmem, hmepc, hmstatus, fun p hp => ?_, fun r hr => ?_⟩
    · rcases List.mem_cons.mp hp with rfl | hp
      · exact (hout p.1 hq).trans (h.read_write_self _ hq0)
      · rw [← hread]
        exact hin p hp
    · have hrq : r ≠ q.1 := fun he => hr (by rw [he]; exact List.mem_cons_self)
      exact (hout r fun hm => hr (List.mem_cons_of_mem _ hm)).trans (h.read_write_ne _ hrq)

end Rv64

/-
# The trap entry of the RISC-V port

`__trap_entry` saves the interrupted context in a frame on the current stack,
calls `trap_handler` with the frame, and restores the context. The handler is
any routine: a step relation and a condition for its return. Between its steps
it may be interrupted itself, to any depth.

The first instruction puts the interrupted `sp` into `t0`, and `t0` is saved
afterwards: the frame holds `sp` in its `t0`, and so does `t0` after the trap.

Key definitions: `trapEntry`, `TrapFrame`, `Handler`, `Obeys`, `trap`,
`TransparentTrap`.
Key theorems: `trapEntry_eq`, `trap_result`, `trap_transparent_iff`,
`trap_clobbers_t0`.
-/
import Mathlib.Logic.Relation
import RtAsync.Lib.Rv64

namespace RtAsync

open Function (update update_self update_of_ne)
open Rv64

def sp : Reg := 2
def t0 : Reg := 5
def a0 : Reg := 10

/-- `gp`, `tp` and `s0` to `s11`. -/
def calleeSaved : List Reg := [3, 4, 8, 9, 18, 19, 20, 21, 22, 23, 24, 25, 26, 27]

/-- `__trap_entry`. -/
def trapEntry : List Instr :=
  [.mv t0 sp, .addi sp sp (-272), .andi sp sp (-16), .sd t0 256 sp,
   .sd 1 0 sp, .sd 3 8 sp, .sd 4 16 sp, .sd 5 24 sp, .sd 6 32 sp,
   .sd 7 40 sp, .sd 8 48 sp, .sd 9 56 sp, .sd 10 64 sp, .sd 11 72 sp,
   .sd 12 80 sp, .sd 13 88 sp, .sd 14 96 sp, .sd 15 104 sp, .sd 16 112 sp,
   .sd 17 120 sp, .sd 18 128 sp, .sd 19 136 sp, .sd 20 144 sp, .sd 21 152 sp,
   .sd 22 160 sp, .sd 23 168 sp, .sd 24 176 sp, .sd 25 184 sp, .sd 26 192 sp,
   .sd 27 200 sp, .sd 28 208 sp, .sd 29 216 sp, .sd 30 224 sp, .sd 31 232 sp,
   .csrr t0 .mepc, .sd t0 240 sp, .csrr t0 .mstatus, .sd t0 248 sp,
   .mv a0 sp, .call,
   .ld t0 240 sp, .csrw .mepc t0, .ld t0 248 sp, .csrw .mstatus t0,
   .ld 1 0 sp, .ld 3 8 sp, .ld 4 16 sp, .ld 5 24 sp, .ld 6 32 sp,
   .ld 7 40 sp, .ld 8 48 sp, .ld 9 56 sp, .ld 10 64 sp, .ld 11 72 sp,
   .ld 12 80 sp, .ld 13 88 sp, .ld 14 96 sp, .ld 15 104 sp, .ld 16 112 sp,
   .ld 17 120 sp, .ld 18 128 sp, .ld 19 136 sp, .ld 20 144 sp, .ld 21 152 sp,
   .ld 22 160 sp, .ld 23 168 sp, .ld 24 176 sp, .ld 25 184 sp, .ld 26 192 sp,
   .ld 27 200 sp, .ld 28 208 sp, .ld 29 216 sp, .ld 30 224 sp, .ld 31 232 sp,
   .ld sp 256 sp, .mret]

/-- `TrapFrame`, fields of one doubleword each in this order. -/
structure TrapFrame where
  (ra gp tp t0 t1 t2 s0 s1 : Word)
  (a0 a1 a2 a3 a4 a5 a6 a7 : Word)
  (s2 s3 s4 s5 s6 s7 s8 s9 : Word)
  (s10 s11 t3 t4 t5 t6 mepc mstatus : Word)

namespace TrapFrame

/-- The frame at `p`. -/
def load (m : Memory) (p : Word) : TrapFrame where
  ra := ld m (p.plus 0)
  gp := ld m (p.plus 8)
  tp := ld m (p.plus 16)
  t0 := ld m (p.plus 24)
  t1 := ld m (p.plus 32)
  t2 := ld m (p.plus 40)
  s0 := ld m (p.plus 48)
  s1 := ld m (p.plus 56)
  a0 := ld m (p.plus 64)
  a1 := ld m (p.plus 72)
  a2 := ld m (p.plus 80)
  a3 := ld m (p.plus 88)
  a4 := ld m (p.plus 96)
  a5 := ld m (p.plus 104)
  a6 := ld m (p.plus 112)
  a7 := ld m (p.plus 120)
  s2 := ld m (p.plus 128)
  s3 := ld m (p.plus 136)
  s4 := ld m (p.plus 144)
  s5 := ld m (p.plus 152)
  s6 := ld m (p.plus 160)
  s7 := ld m (p.plus 168)
  s8 := ld m (p.plus 176)
  s9 := ld m (p.plus 184)
  s10 := ld m (p.plus 192)
  s11 := ld m (p.plus 200)
  t3 := ld m (p.plus 208)
  t4 := ld m (p.plus 216)
  t5 := ld m (p.plus 224)
  t6 := ld m (p.plus 232)
  mepc := ld m (p.plus 240)
  mstatus := ld m (p.plus 248)

/-- What the names of the fields say. -/
def interrupted (h : Hart) : TrapFrame where
  ra := h.read 1
  gp := h.read 3
  tp := h.read 4
  t0 := h.read 5
  t1 := h.read 6
  t2 := h.read 7
  s0 := h.read 8
  s1 := h.read 9
  a0 := h.read 10
  a1 := h.read 11
  a2 := h.read 12
  a3 := h.read 13
  a4 := h.read 14
  a5 := h.read 15
  a6 := h.read 16
  a7 := h.read 17
  s2 := h.read 18
  s3 := h.read 19
  s4 := h.read 20
  s5 := h.read 21
  s6 := h.read 22
  s7 := h.read 23
  s8 := h.read 24
  s9 := h.read 25
  s10 := h.read 26
  s11 := h.read 27
  t3 := h.read 28
  t4 := h.read 29
  t5 := h.read 30
  t6 := h.read 31
  mepc := h.mepc
  mstatus := h.mstatus

end TrapFrame

/-! ### The blocks of `__trap_entry` -/

/-- The registers that are stored and loaded in one block, with their offsets. -/
def saved : List (Reg × ℕ) :=
  [(1, 0), (3, 8), (4, 16), (5, 24), (6, 32), (7, 40), (8, 48), (9, 56), (10, 64),
   (11, 72), (12, 80), (13, 88), (14, 96), (15, 104), (16, 112), (17, 120), (18, 128), (19, 136),
   (20, 144), (21, 152), (22, 160), (23, 168), (24, 176), (25, 184), (26, 192), (27, 200), (28, 208),
   (29, 216), (30, 224), (31, 232)]

def allocate : List Instr :=
  [.mv t0 sp, .addi sp sp (-272), .andi sp sp (-16), .sd t0 256 sp]

def saveCsrs : List Instr :=
  [.csrr t0 .mepc, .sd t0 240 sp, .csrr t0 .mstatus, .sd t0 248 sp, .mv a0 sp]

def restoreCsrs : List Instr :=
  [.ld t0 240 sp, .csrw .mepc t0, .ld t0 248 sp, .csrw .mstatus t0]

def beforeCall : List Instr := allocate ++ stores sp saved ++ saveCsrs

def afterCall : List Instr := restoreCsrs ++ loads sp saved ++ [.ld sp 256 sp]

theorem trapEntry_eq : trapEntry = beforeCall ++ .call :: (afterCall ++ [.mret]) := rfl

theorem beforeCall_straight : ∀ i ∈ beforeCall, i.straight = true := by decide

theorem afterCall_straight : ∀ i ∈ afterCall, i.straight = true := by decide

/-- Where the frame is. -/
def frameBase (h : Hart) : Word := (h.read sp + BitVec.ofInt 64 (-272)) &&& BitVec.ofInt 64 (-16)

/-- The interrupted registers, as the stores find them. -/
def clobbered (h : Hart) (r : Reg) : Word := if r = t0 then h.read sp else h.read r

/-- The doublewords that are stored: the interrupted `sp`, the registers, and
the two control registers. -/
def frame (h : Hart) : List (ℕ × Word) :=
  (256, h.read sp) :: saved.map (fun p => (p.2, clobbered h p.1)) ++
    [(240, h.mepc), (248, h.mstatus)]

theorem frame_spaced (h : Hart) : Spaced ((frame h).map Prod.fst) := by
  show Spaced (256 :: saved.map Prod.snd ++ [240, 248])
  decide

theorem storeAll_frame (m : Memory) (base : Word) (h : Hart) :
    storeAll m base (frame h) =
      storeAll (storeAll (sd m (base.plus 256) (h.read sp)) base
        (saved.map fun p => (p.2, clobbered h p.1))) base [(240, h.mepc), (248, h.mstatus)] := by
  rw [frame, storeAll_append, storeAll_cons m]

/-- The frame is allocated, with the interrupted `sp` at its end. -/
theorem run_allocate (h : Hart) :
    ∃ g, run allocate h = g ∧
      g.read sp = frameBase h ∧ (∀ r, r ≠ sp → g.read r = clobbered h r) ∧
      g.mem = sd h.mem ((frameBase h).plus 256) (h.read sp) ∧
      g.mepc = h.mepc ∧ g.mstatus = h.mstatus := by
  have hsp : sp ≠ t0 := by decide
  have hsp0 : sp ≠ 0 := by decide
  have ht0 : t0 ≠ 0 := by decide
  simp only [allocate, run_cons, run_nil, Instr.step]
  refine ⟨_, rfl, ?_, fun r hr => ?_, ?_, ?_, ?_⟩
  · rw [Hart.setMem_read, Hart.read_write_self _ _ hsp0, Hart.read_write_self _ _ hsp0,
      Hart.read_write_ne _ _ hsp, frameBase]
  · rw [Hart.setMem_read, Hart.read_write_ne _ _ hr, Hart.read_write_ne _ _ hr, clobbered]
    by_cases ht : r = t0
    · rw [if_pos ht, ht, Hart.read_write_self _ _ ht0]
    · rw [if_neg ht, Hart.read_write_ne _ _ ht]
  · simp only [Hart.setMem_mem, Hart.write_mem, Hart.read_write_self _ _ hsp0,
      Hart.read_write_ne _ _ hsp, Hart.read_write_ne _ _ hsp.symm, Hart.read_write_self _ _ ht0,
      frameBase]
  · simp only [Hart.setMem_mepc, Hart.write_mepc]
  · simp only [Hart.setMem_mstatus, Hart.write_mstatus]

/-- The control registers go through `t0`, and the frame becomes the argument. -/
theorem run_saveCsrs (g : Hart) :
    ∃ g', run saveCsrs g = g' ∧
      g'.read sp = g.read sp ∧ g'.read a0 = g.read sp ∧
      g'.mem = storeAll g.mem (g.read sp) [(240, g.mepc), (248, g.mstatus)] := by
  have hsp : sp ≠ t0 := by decide
  have hspa : sp ≠ a0 := by decide
  have ha0 : a0 ≠ 0 := by decide
  have ht0 : t0 ≠ 0 := by decide
  simp only [saveCsrs, run_cons, run_nil, Instr.step]
  refine ⟨_, rfl, ?_, ?_, ?_⟩
  · simp only [Hart.setMem_read, Hart.read_write_ne _ _ hsp, Hart.read_write_ne _ _ hspa]
  · simp only [Hart.setMem_read, Hart.read_write_ne _ _ hsp, Hart.read_write_self _ _ ha0]
  · simp only [Hart.setMem_mem, Hart.setMem_read, Hart.setMem_mstatus, Hart.write_mem,
      Hart.write_mstatus, Hart.read_write_ne _ _ hsp, Hart.read_write_self _ _ ht0, storeAll,
      List.foldl_cons, List.foldl_nil]

/-- The state in which `trap_handler` is called. -/
theorem run_beforeCall (h : Hart) :
    (run beforeCall h).read sp = frameBase h ∧ (run beforeCall h).read a0 = frameBase h ∧
      (run beforeCall h).mem = storeAll h.mem (frameBase h) (frame h) := by
  obtain ⟨g, hg, hsp, hregs, hmem, hmepc, hmstatus⟩ := run_allocate h
  have hvals : saved.map (fun p => (p.2, g.read p.1)) = saved.map fun p => (p.2, clobbered h p.1) := by
    have hne : ∀ p ∈ saved, p.1 ≠ sp := by decide
    exact List.map_congr_left fun p hp => by rw [hregs p.1 (hne p hp)]
  obtain ⟨g', hg', hsp', ha0', hmem'⟩ := run_saveCsrs
    (g.setMem (storeAll g.mem (frameBase h) (saved.map fun p => (p.2, clobbered h p.1))))
  rw [beforeCall, run_append, run_append, hg, run_stores, hsp, hvals, hg']
  rw [Hart.setMem_read, hsp] at hsp' ha0'
  rw [Hart.setMem_mem, Hart.setMem_read, Hart.setMem_mepc, Hart.setMem_mstatus, hsp, hmepc,
    hmstatus] at hmem'
  refine ⟨hsp', ha0', ?_⟩
  rw [hmem', hmem, storeAll_frame]

/-- The control registers come back through `t0`. -/
theorem run_restoreCsrs (g : Hart) :
    ∃ g', run restoreCsrs g = g' ∧
      g'.read sp = g.read sp ∧ g'.mem = g.mem ∧ g'.mepc = ld g.mem ((g.read sp).plus 240) ∧
      g'.mstatus = ld g.mem ((g.read sp).plus 248) := by
  have hsp : sp ≠ t0 := by decide
  have ht0 : t0 ≠ 0 := by decide
  simp only [restoreCsrs, run_cons, run_nil, Instr.step]
  refine ⟨_, rfl, ?_, ?_, ?_, ?_⟩
  · simp only [Hart.setMepc_read, Hart.setMstatus_read, Hart.read_write_ne _ _ hsp]
  · simp only [Hart.setMepc_mem, Hart.setMstatus_mem, Hart.write_mem]
  · simp only [Hart.setMepc_mepc, Hart.setMstatus_mepc, Hart.write_mepc,
      Hart.read_write_self _ _ ht0]
  · simp only [Hart.setMstatus_mstatus, Hart.setMepc_mem, Hart.setMepc_read, Hart.write_mem,
      Hart.read_write_ne _ _ hsp, Hart.read_write_self _ _ ht0]

/-- What is restored from the frame of a hart whose `sp` points to it. -/
theorem run_afterCall (g : Hart) :
    (run afterCall g).mem = g.mem ∧
      (run afterCall g).mepc = ld g.mem ((g.read sp).plus 240) ∧
      (run afterCall g).mstatus = ld g.mem ((g.read sp).plus 248) ∧
      (∀ p ∈ saved, (run afterCall g).read p.1 = ld g.mem ((g.read sp).plus p.2)) ∧
      (run afterCall g).read sp = ld g.mem ((g.read sp).plus 256) := by
  have hsp0 : sp ≠ 0 := by decide
  obtain ⟨g', hg', hsp', hmem', hmepc', hmstatus'⟩ := run_restoreCsrs g
  obtain ⟨hmem, hmepc, hmstatus, hin, hout⟩ :=
    run_loads sp saved g' (by decide) (by decide) (by decide)
  have hsp : (run (loads sp saved) g').read sp = g.read sp := (hout sp (by decide)).trans hsp'
  rw [afterCall, run_append, run_append, hg', run_cons, run_nil, Instr.step]
  refine ⟨?_, ?_, ?_, fun p hp => ?_, ?_⟩
  · rw [Hart.write_mem, hmem, hmem']
  · rw [Hart.write_mepc, hmepc, hmepc']
  · rw [Hart.write_mstatus, hmstatus, hmstatus']
  · have hne : ∀ p ∈ saved, p.1 ≠ sp := by decide
    rw [Hart.read_write_ne _ _ (hne p hp), hin p hp, hmem', hsp']
  · rw [Hart.read_write_self _ _ hsp0, hsp, hmem, hmem']

/-! ### Where the frame is -/

/-- `andi` with -16 rounds down to a multiple of 16. -/
theorem toNat_and_neg16 (w : Word) : (w &&& BitVec.ofInt 64 (-16)).toNat = w.toNat / 16 * 16 := by
  have hshift : w &&& BitVec.ofInt 64 (-16) = (w >>> 4) <<< 4 := by
    have hmask : ∀ i < 64, (BitVec.ofInt 64 (-16)).getLsbD i = decide (4 ≤ i) := by decide
    apply BitVec.eq_of_getLsbD_eq
    intro i hi
    rw [BitVec.getLsbD_and, hmask i hi, BitVec.getLsbD_shiftLeft, BitVec.getLsbD_ushiftRight]
    by_cases h4 : 4 ≤ i
    · simp [h4, hi, Nat.not_lt.mpr h4, Nat.add_sub_cancel' h4]
    · simp [h4, Nat.lt_of_not_le h4]
  have hw := w.isLt
  rw [hshift, BitVec.toNat_shiftLeft, BitVec.toNat_ushiftRight, Nat.shiftRight_eq_div_pow,
    Nat.shiftLeft_eq]
  omega

theorem frameBase_toNat (h : Hart) :
    (frameBase h).toNat = ((h.read sp).toNat + (2 ^ 64 - 272)) % 2 ^ 64 / 16 * 16 := by
  rw [frameBase, toNat_and_neg16, BitVec.toNat_add]
  rfl

theorem frameBase_aligned (h : Hart) : (frameBase h).toNat % 16 = 0 := by
  rw [frameBase_toNat]
  omega

/-- With 272 bytes below it, `sp` is above the frame. -/
theorem frameBase_below {h : Hart} (hsp : 272 ≤ (h.read sp).toNat) :
    (frameBase h).toNat + 272 ≤ (h.read sp).toNat := by
  have := (h.read sp).isLt
  rw [frameBase_toNat]
  omega

/-- With less, the frame wraps around to the top of the address space. -/
theorem frameBase_above {h : Hart} (hsp : (h.read sp).toNat < 272) :
    h.read sp ≤ frameBase h := by
  rw [BitVec.le_def, frameBase_toNat]
  omega

theorem plus_toNat {base : Word} {off : ℕ} (h : base.toNat + off < 2 ^ 64) :
    (base.plus off).toNat = base.toNat + off := by
  rw [Word.plus, BitVec.toNat_add, BitVec.toNat_ofNat]
  omega

theorem frame_offset (h : Hart) : ∀ p ∈ frame h, p.1 ≤ 256 := by
  have hoff : ∀ off ∈ (frame h).map Prod.fst, off ≤ 256 := by
    show ∀ off ∈ 256 :: saved.map Prod.snd ++ [240, 248], off ≤ 256
    decide
  exact fun p hp => hoff p.1 (List.mem_map_of_mem hp)

/-- The stores of the entry are all below the interrupted `sp`. -/
theorem frame_outside (h : Hart) (hsp : 272 ≤ (h.read sp).toNat) {a : Word} (ha : h.read sp ≤ a) :
    storeAll h.mem (frameBase h) (frame h) a = h.mem a := by
  apply storeAll_outside
  intro p hp
  have hoff := frame_offset h p hp
  have hbelow := frameBase_below hsp
  have hlt := a.isLt
  rw [BitVec.le_def] at ha
  rw [BitVec.toNat_sub, plus_toNat (by omega)]
  omega

/-! ### The handler, and traps inside it -/

/-- A routine: what it can do between two points at which it can be
interrupted, and where it returns. -/
structure Handler where
  step : Hart → Hart → Prop
  returned : Hart → Prop

/-- A call of the routine that takes traps `inner` on its way. -/
def Handler.call (H : Handler) (inner : Hart → Hart → Prop) (h h' : Hart) : Prop :=
  Relation.ReflTransGen (fun a b => H.step a b ∨ inner a b) h h' ∧ H.returned h'

theorem Handler.call_mono (H : Handler) {inner inner' : Hart → Hart → Prop}
    (hle : ∀ a b, inner a b → inner' a b) {h h' : Hart} (hc : H.call inner h h') :
    H.call inner' h h' :=
  ⟨Relation.ReflTransGen.mono (fun a b hab => Or.imp_right (hle a b) hab) h h' hc.1, hc.2⟩

section

-- the addresses of the stack
variable (stack : Word → Prop)

/-- What a trap may do to the code it interrupts: nothing to its registers, and
nothing to its stack at or above its `sp`. -/
def Undisturbed (h h' : Hart) : Prop :=
  (∀ r, h'.read r = h.read r) ∧ ∀ a, stack a → h.read sp ≤ a → h'.mem a = h.mem a

/-- The calling convention, and interrupts disabled at the return. -/
structure CallConv (h h' : Hart) : Prop where
  keepsSp : h'.read sp = h.read sp
  keepsSaved : ∀ r ∈ calleeSaved, h'.read r = h.read r
  /-- The stack of the caller, with the save area that the argument points to. -/
  keepsStack : ∀ a, stack a → h.read sp ≤ a → h'.mem a = h.mem a
  mie : h'.mstatus.getLsbD 3 = false

/-- The routine obeys the calling convention, also where traps that do not
disturb it come between its steps, and it returns. -/
structure Obeys (H : Handler) : Prop where
  conv : ∀ h h', H.call (Undisturbed stack) h h' → CallConv stack h h'
  returns : ∀ h, ∃ h', H.call (fun _ _ => False) h h'

/-- The frame fits into the stack. -/
def Room (h : Hart) : Prop := ∀ i < 272, stack ((frameBase h).plus i)

/-- `t0` is the interrupted `sp`, and there are 272 bytes below it. -/
def Clean (h : Hart) : Prop := h.read t0 = h.read sp ∧ 272 ≤ (h.read sp).toNat

/-- A trap that is taken at `h`: the hardware writes `mepc` and `mstatus`, and
`mret` writes `mstatus`. -/
def Taken (trap : Hart → Hart → Prop) (h h' : Hart) : Prop :=
  Clean h ∧ Room stack h ∧
    ∃ pc ms ms' g, trap ((h.setMepc pc).setMstatus ms) g ∧ h' = g.setMstatus ms'

/-- `__trap_entry` up to its `mret`, with traps nested to depth `n` inside the
handler. The traps inside are taken where the entry keeps the registers. -/
def trap (H : Handler) : ℕ → Hart → Hart → Prop
  | 0 => ReachesMret (H.call fun _ _ => False) trapEntry
  | n + 1 => ReachesMret (H.call (Taken stack (trap H n))) trapEntry

/-- Nothing of the interrupted code is changed. -/
structure Transparent (h h' : Hart) : Prop where
  regs : ∀ r, h'.read r = h.read r
  mepc : h'.mepc = h.mepc
  mstatus : h'.mstatus = h.mstatus
  stack : ∀ a, stack a → h.read sp ≤ a → h'.mem a = h.mem a

/-- The handler gets the interrupted context, and the trap reaches `mret` and
is transparent. -/
structure TransparentTrap (H : Handler) (n : ℕ) (h : Hart) : Prop where
  frame : ∃ g, atCall trapEntry h = some g ∧ (g.read a0).toNat % 16 = 0 ∧
    TrapFrame.load g.mem (g.read a0) = TrapFrame.interrupted h
  returns : ∃ h', trap stack H n h h'
  transparent : ∀ h', trap stack H n h h' → Transparent stack h h'

variable {stack} {H : Handler}

/-- The state at the entry of the handler. -/
structure Entered (h e : Hart) : Prop where
  base : e.read sp = frameBase h
  arg : e.read a0 = frameBase h
  mem : e.mem = storeAll h.mem (frameBase h) (frame h)

theorem entered_call (h : Hart) (link : Word) : Entered h ((run beforeCall h).write ra link) := by
  obtain ⟨hsp, ha0, hmem⟩ := run_beforeCall h
  refine ⟨?_, ?_, ?_⟩
  · rw [Hart.read_write_ne _ _ (by decide), hsp]
  · rw [Hart.read_write_ne _ _ (by decide), ha0]
  · rw [Hart.write_mem, hmem]

/-- What the handler finds in the frame. -/
theorem Entered.ld_frame {h e : Hart} (he : Entered h e) :
    ∀ p ∈ frame h, ld e.mem ((frameBase h).plus p.1) = p.2 := by
  intro p hp
  rw [he.mem, ld_storeAll (frameBase h) (frame h) h.mem (frame_spaced h) p hp]

/-- A handler that keeps the stack of its caller returns with the frame as it
was stored. -/
theorem CallConv.ld_frame {h e g : Hart} (he : Entered h e) (hconv : CallConv stack e g)
    (hsp : 272 ≤ (h.read sp).toNat) (hroom : Room stack h) :
    ∀ p ∈ frame h, ld g.mem ((frameBase h).plus p.1) = p.2 := by
  intro p hp
  have hoff := frame_offset h p hp
  have hbelow := frameBase_below hsp
  have hlt := (h.read sp).isLt
  rw [← he.ld_frame p hp]
  apply ld_congr
  intro k hk
  have haddr : ((frameBase h).plus p.1).plus k = (frameBase h).plus (p.1 + k) := by
    apply BitVec.eq_of_toNat_eq
    rw [plus_toNat (by rw [plus_toNat (by omega)]; omega), plus_toNat (by omega),
      plus_toNat (by omega)]
    omega
  rw [haddr]
  apply hconv.keepsStack _ (hroom _ (by omega))
  rw [he.base, BitVec.le_def, plus_toNat (by omega)]
  omega

theorem clobbered_of_ne {h : Hart} {r : Reg} (hr : r ≠ t0) : clobbered h r = h.read r := if_neg hr

theorem mem_frame_saved (h : Hart) {p : Reg × ℕ} (hp : p ∈ saved) :
    (p.2, clobbered h p.1) ∈ frame h := by
  apply List.mem_append_left
  apply List.mem_cons_of_mem
  exact List.mem_map.mpr ⟨p, hp, rfl⟩

theorem mem_frame_sp (h : Hart) : (256, h.read sp) ∈ frame h :=
  List.mem_append_left _ List.mem_cons_self

theorem mem_frame_csrs (h : Hart) : (240, h.mepc) ∈ frame h ∧ (248, h.mstatus) ∈ frame h :=
  ⟨List.mem_append_right _ List.mem_cons_self,
    List.mem_append_right _ (List.mem_cons_of_mem _ List.mem_cons_self)⟩

/-- Every register but `x0` and `sp` is in the block. -/
theorem saved_cover : ∀ r : Reg, r = 0 ∨ r = sp ∨ ∃ p ∈ saved, p.1 = r := by decide

/-- **What a trap does.** `t0` comes back as the interrupted `sp`, and
everything else as it was. -/
theorem trap_result {R : Hart → Hart → Prop} {h h' : Hart}
    (hR : ∀ e g, R e g → CallConv stack e g) (hsp : 272 ≤ (h.read sp).toNat)
    (hroom : Room stack h) (ht : ReachesMret R trapEntry h h') :
    (∀ r, h'.read r = clobbered h r) ∧ h'.mepc = h.mepc ∧ h'.mstatus = h.mstatus ∧
      ∀ a, stack a → h.read sp ≤ a → h'.mem a = h.mem a := by
  rw [trapEntry_eq, reachesMret_append _ _ _ beforeCall_straight] at ht
  obtain ⟨link, g, hg, ht⟩ := ht
  rw [reachesMret_append _ _ _ afterCall_straight] at ht
  obtain rfl : h' = run afterCall g := ht
  have he := entered_call h link
  have hconv := hR _ _ hg
  have hld := hconv.ld_frame he hsp hroom
  have hbase : g.read sp = frameBase h := hconv.keepsSp.trans he.base
  obtain ⟨hmem, hmepc, hmstatus, hregs, hrsp⟩ := run_afterCall g
  rw [hbase] at hmepc hmstatus hregs hrsp
  refine ⟨fun r => ?_, ?_, ?_, fun a hstack ha => ?_⟩
  · rcases saved_cover r with rfl | rfl | ⟨p, hp, rfl⟩
    · rw [clobbered_of_ne (by decide)]
      rfl
    · rw [clobbered_of_ne (by decide), hrsp, hld _ (mem_frame_sp h)]
    · rw [hregs p hp, hld _ (mem_frame_saved h hp)]
  · rw [hmepc, hld _ (mem_frame_csrs h).1]
  · rw [hmstatus, hld _ (mem_frame_csrs h).2]
  · have hle : ((run beforeCall h).write ra link).read sp ≤ a := by
      have hbelow := frameBase_below hsp
      rw [BitVec.le_def] at ha ⊢
      rw [he.base]
      omega
    rw [hmem, hconv.keepsStack a hstack hle, he.mem, frame_outside h hsp ha]

/-- The handler's frame is the interrupted context, but for `t0`. -/
theorem Entered.load_frame {h e : Hart} (he : Entered h e) :
    TrapFrame.load e.mem (frameBase h) = { TrapFrame.interrupted h with t0 := h.read sp } := by
  have hregs : ∀ p ∈ saved, ld e.mem ((frameBase h).plus p.2) = clobbered h p.1 :=
    fun p hp => he.ld_frame (p.2, clobbered h p.1) (mem_frame_saved h hp)
  have hmepc := he.ld_frame (240, h.mepc) (mem_frame_csrs h).1
  have hmstatus := he.ld_frame (248, h.mstatus) (mem_frame_csrs h).2
  simp only [saved, List.forall_mem_cons] at hregs
  obtain ⟨hra, hgp, htp, ht0, ht1, ht2, hs0, hs1, ha0, ha1, ha2, ha3, ha4, ha5, ha6, ha7, hs2, hs3,
    hs4, hs5, hs6, hs7, hs8, hs9, hs10, hs11, ht3, ht4, ht5, ht6, -⟩ := hregs
  rw [TrapFrame.load, hra, hgp, htp, ht0, ht1, ht2, hs0, hs1, ha0, ha1, ha2, ha3, ha4, ha5, ha6,
    ha7, hs2, hs3, hs4, hs5, hs6, hs7, hs8, hs9, hs10, hs11, ht3, ht4, ht5, ht6, hmepc, hmstatus]
  rfl

theorem atCall_trapEntry (h : Hart) : atCall trapEntry h = some (run beforeCall h) := by
  rw [trapEntry_eq, atCall_append _ _ _ beforeCall_straight]
  rfl

/-- The context that the handler gets is the interrupted one just if `t0` was
`sp`. -/
theorem frame_iff (h : Hart) :
    (∃ g, atCall trapEntry h = some g ∧ (g.read a0).toNat % 16 = 0 ∧
      TrapFrame.load g.mem (g.read a0) = TrapFrame.interrupted h) ↔ h.read t0 = h.read sp := by
  obtain ⟨hsp, ha0, hmem⟩ := run_beforeCall h
  have he : Entered h (run beforeCall h) := ⟨hsp, ha0, hmem⟩
  rw [atCall_trapEntry]
  constructor
  · rintro ⟨g, hg, -, hframe⟩
    obtain rfl := Option.some.inj hg
    rw [ha0, he.load_frame] at hframe
    exact (congrArg TrapFrame.t0 hframe).symm
  · intro ht
    refine ⟨_, rfl, ?_, ?_⟩
    · rw [ha0]
      exact frameBase_aligned h
    · rw [ha0, he.load_frame, ← ht]
      rfl

/-! ### Traps nested to any depth -/

/-- The traps taken inside the handler of a trap of depth `n`. -/
def trapsInside (stack : Word → Prop) (H : Handler) : ℕ → Hart → Hart → Prop
  | 0 => fun _ _ => False
  | n + 1 => Taken stack (trap stack H n)

theorem trap_eq (stack : Word → Prop) (H : Handler) (n : ℕ) :
    trap stack H n = ReachesMret (H.call (trapsInside stack H n)) trapEntry := by
  cases n with
  | zero => rfl
  | succ n => rfl

/-- A trap that is transparent does not disturb the code in which it is taken. -/
theorem Taken.undisturbed {R : Hart → Hart → Prop}
    (hR : ∀ g g', Clean g → Room stack g → R g g' → Transparent stack g g') {h h' : Hart}
    (ht : Taken stack R h h') : Undisturbed stack h h' := by
  obtain ⟨hclean, hroom, pc, ms, ms', g, htrap, rfl⟩ := ht
  have htransparent := hR ((h.setMepc pc).setMstatus ms) g hclean hroom htrap
  exact ⟨fun r => htransparent.regs r, fun a hstack ha => htransparent.stack a hstack ha⟩

/-- What the handler is called for at depth `n` obeys the calling convention,
and the trap is transparent where the entry keeps `t0`. -/
theorem trap_conv (hobeys : Obeys stack H) : ∀ n,
    (∀ e g, H.call (trapsInside stack H n) e g → CallConv stack e g) ∧
      ∀ h h', Clean h → Room stack h → trap stack H n h h' → Transparent stack h h'
  | n => by
    have hinside : ∀ a b, trapsInside stack H n a b → Undisturbed stack a b := by
      cases n with
      | zero => exact fun a b hab => hab.elim
      | succ n => exact fun a b hab => hab.undisturbed (trap_conv hobeys n).2
    have hconv : ∀ e g, H.call (trapsInside stack H n) e g → CallConv stack e g :=
      fun e g hcall => hobeys.conv e g (H.call_mono hinside hcall)
    refine ⟨hconv, fun h h' ⟨ht0, hsp⟩ hroom htrap => ?_⟩
    rw [trap_eq] at htrap
    obtain ⟨hregs, hmepc, hmstatus, hstack⟩ := trap_result hconv hsp hroom htrap
    refine ⟨fun r => (hregs r).trans ?_, hmepc, hmstatus, hstack⟩
    by_cases hr : r = t0
    · rw [clobbered, if_pos hr, hr, ht0]
    · exact clobbered_of_ne hr

/-- A trap whose handler takes no trap reaches `mret`. -/
theorem trap_returns (hobeys : Obeys stack H) (n : ℕ) (h : Hart) : ∃ h', trap stack H n h h' := by
  obtain ⟨g, hg⟩ := hobeys.returns ((run beforeCall h).write ra 0)
  refine ⟨run afterCall g, ?_⟩
  rw [trap_eq, trapEntry_eq, reachesMret_append _ _ _ beforeCall_straight]
  refine ⟨0, g, H.call_mono (fun _ _ hno => hno.elim) hg, ?_⟩
  rw [reachesMret_append _ _ _ afterCall_straight]
  rfl

/-- With fewer than 272 bytes below `sp` the first byte of the frame is a byte
above `sp`, and the trap leaves the low byte of `ra` in it. -/
theorem trap_wraps (hobeys : Obeys stack H) {n : ℕ} {h h' : Hart} (hroom : Room stack h)
    (htrap : trap stack H n h h') : h'.mem (frameBase h) = (h.read ra).extractLsb' 0 8 := by
  have hzero : ∀ w : Word, w.plus 0 = w := fun w => BitVec.add_zero w
  rw [trap_eq, trapEntry_eq, reachesMret_append _ _ _ beforeCall_straight] at htrap
  obtain ⟨link, g, hg, htrap⟩ := htrap
  rw [reachesMret_append _ _ _ afterCall_straight] at htrap
  obtain rfl : h' = run afterCall g := htrap
  have he := entered_call h link
  have hconv := (trap_conv hobeys n).1 _ _ hg
  have hstack : stack (frameBase h) := hzero (frameBase h) ▸ hroom 0 (by decide)
  have hra : ld ((run beforeCall h).write ra link).mem ((frameBase h).plus 0) = h.read ra := by
    have hmem : ((ra, 0) : Reg × ℕ) ∈ saved := by decide
    rw [he.ld_frame _ (mem_frame_saved h hmem), clobbered_of_ne (by decide)]
  rw [(run_afterCall g).1, hconv.keepsStack _ hstack (by rw [he.base]; exact BitVec.le_refl _), ← hra,
    ld_low, hzero, hzero]

/-- **When a trap is transparent.** For every handler that obeys the calling
convention, every depth of traps inside it and every interrupted state: the
trap is transparent, whatever is in memory, just if the interrupted `t0` is
`sp` and there are 272 bytes below `sp`. -/
theorem trap_transparent_iff (hobeys : Obeys stack H) (n : ℕ) (h : Hart) (hroom : Room stack h) :
    (∀ m, TransparentTrap stack H n (h.setMem m)) ↔
      h.read t0 = h.read sp ∧ 272 ≤ (h.read sp).toNat := by
  constructor
  · intro htrap
    have ht0 : h.read t0 = h.read sp := (frame_iff (h.setMem h.mem)).mp (htrap h.mem).frame
    refine ⟨ht0, Nat.not_lt.mp fun hsp => ?_⟩
    -- a memory that differs from `ra` in the byte that is overwritten
    let m : Memory := fun _ => ~~~ (h.read ra).extractLsb' 0 8
    obtain ⟨h', hret⟩ := (htrap m).returns
    have hwraps : h'.mem (frameBase h) = (h.read ra).extractLsb' 0 8 :=
      trap_wraps hobeys (h := h.setMem m) hroom hret
    have hstack : stack (frameBase h) := by
      have hzero := hroom 0 (by decide)
      rwa [show (frameBase h).plus 0 = frameBase h from BitVec.add_zero _] at hzero
    have hkept : h'.mem (frameBase h) = ~~~ (h.read ra).extractLsb' 0 8 :=
      ((htrap m).transparent h' hret).stack _ hstack (frameBase_above hsp)
    rw [hwraps] at hkept
    have hbit := congrArg (fun b : BitVec 8 => b.getLsbD 0) hkept
    simp at hbit
  · rintro hclean m
    exact ⟨(frame_iff (h.setMem m)).mpr hclean.1, trap_returns hobeys n _,
      fun h' => (trap_conv hobeys n).2 _ h' hclean hroom⟩

end

/-! ### One handler -/

/-- A handler that clobbers `t1`, `mepc` and `mstatus`, puts `sp` into `t0`, and
returns with interrupts disabled. -/
def clobber : Handler where
  step := fun h h' => h' = (((h.write t0 (h.read sp)).write 6 0).setMepc 0).setMstatus 0
  returned := fun h => h.mstatus.getLsbD 3 = false

theorem clobber_obeys : Obeys (fun _ => True) clobber := by
  constructor
  · intro h h' ⟨hrun, hreturned⟩
    have hkeeps : h'.read sp = h.read sp ∧ (∀ r ∈ calleeSaved, h'.read r = h.read r) ∧
        ∀ a, h.read sp ≤ a → h'.mem a = h.mem a := by
      clear hreturned
      induction hrun with
      | refl => exact ⟨rfl, fun _ _ => rfl, fun _ _ => rfl⟩
      | @tail b c _ hstep ih =>
        obtain ⟨hsp, hsaved, hmem⟩ := ih
        rcases hstep with rfl | ⟨hregs, hstack⟩
        · have hne : ∀ r ∈ calleeSaved, r ≠ 6 ∧ r ≠ t0 := by decide
          refine ⟨?_, fun r hr => ?_, hmem⟩
          · rw [Hart.setMstatus_read, Hart.setMepc_read, Hart.read_write_ne _ _ (by decide),
              Hart.read_write_ne _ _ (by decide), hsp]
          · rw [Hart.setMstatus_read, Hart.setMepc_read, Hart.read_write_ne _ _ (hne r hr).1,
              Hart.read_write_ne _ _ (hne r hr).2, hsaved r hr]
        · refine ⟨(hregs sp).trans hsp, fun r hr => (hregs r).trans (hsaved r hr), fun a ha => ?_⟩
          rw [hstack a trivial (by rw [hsp]; exact ha), hmem a ha]
    exact ⟨hkeeps.1, hkeeps.2.1, fun a _ ha => hkeeps.2.2 a ha, hreturned⟩
  · intro h
    have hret : clobber.returned ((((h.write t0 (h.read sp)).write 6 0).setMepc 0).setMstatus 0) :=
      (by decide : (0 : Word).getLsbD 3 = false)
    exact ⟨_, Relation.ReflTransGen.single (Or.inl rfl), hret⟩

/-- A trap in whose handler one is taken, in whose handler one is taken, `n`
times. -/
def deepTrap (stack : Word → Prop) (H : Handler) : ℕ → Hart → Hart → Prop
  | 0 => trap stack H 0
  | n + 1 => ReachesMret (fun e g => ∃ a b, H.step e a ∧ Taken stack (deepTrap stack H n) a b ∧
      H.step b g ∧ H.returned g) trapEntry

theorem trap_of_deepTrap {stack : Word → Prop} {H : Handler} :
    ∀ {n : ℕ} {h h' : Hart}, deepTrap stack H n h h' → trap stack H n h h'
  | 0, _, _, ht => ht
  | n + 1, h, h', ht => by
    rw [deepTrap, trapEntry_eq, reachesMret_append _ _ _ beforeCall_straight] at ht
    rw [trap_eq, trapEntry_eq, reachesMret_append _ _ _ beforeCall_straight]
    obtain ⟨link, g, ⟨a, b, ha, ⟨hclean, hroom, pc, ms, ms', c, htrap, rfl⟩, hg, hret⟩, hrest⟩ := ht
    have hinner : Taken stack (trap stack H n) a (c.setMstatus ms') :=
      ⟨hclean, hroom, pc, ms, ms', c, trap_of_deepTrap htrap, rfl⟩
    let r : Hart → Hart → Prop := fun x y => H.step x y ∨ trapsInside stack H (n + 1) x y
    have hfirst : r ((run beforeCall h).write ra link) a := Or.inl ha
    have hmiddle : r a (c.setMstatus ms') := Or.inr hinner
    have hlast : r (c.setMstatus ms') g := Or.inl hg
    have hrun := ((Relation.ReflTransGen.single hfirst).tail hmiddle).tail hlast
    exact ⟨link, g, ⟨hrun, hret⟩, hrest⟩

/-- The handler lets itself be interrupted as deep as the stack goes. -/
theorem deepTrap_clobber : ∀ (n : ℕ) (h : Hart), 287 * n + 272 ≤ (h.read sp).toNat →
    ∃ h', deepTrap (fun _ => True) clobber n h h'
  | 0, h, _ => trap_returns clobber_obeys 0 h
  | n + 1, h, hsp => by
    let e := (run beforeCall h).write ra 0
    let a := (((e.write t0 (e.read sp)).write 6 0).setMepc 0).setMstatus 0
    have hbase : e.read sp = frameBase h := (entered_call h 0).base
    have hasp : a.read sp = frameBase h := by
      rw [Hart.setMstatus_read, Hart.setMepc_read, Hart.read_write_ne _ _ (by decide),
        Hart.read_write_ne _ _ (by decide), hbase]
    have hat0 : a.read t0 = frameBase h := by
      rw [Hart.setMstatus_read, Hart.setMepc_read, Hart.read_write_ne _ _ (by decide),
        Hart.read_write_self _ _ (by decide), hbase]
    have hroom : 287 * n + 272 ≤ (frameBase h).toNat := by
      have hlt := (h.read sp).isLt
      rw [frameBase_toNat]
      omega
    obtain ⟨c, hc⟩ := deepTrap_clobber n ((a.setMepc 0).setMstatus 0) (by
      rw [Hart.setMstatus_read, Hart.setMepc_read, hasp]
      exact hroom)
    have htaken : Taken (fun _ => True) (deepTrap (fun _ => True) clobber n) a (c.setMstatus 0) :=
      ⟨⟨hat0.trans hasp.symm, by rw [hasp]; omega⟩, fun _ _ => trivial, 0, 0, 0, c, hc, rfl⟩
    let b := c.setMstatus 0
    let g := (((b.write t0 (b.read sp)).write 6 0).setMepc 0).setMstatus 0
    have hret : clobber.returned g := (by decide : (0 : Word).getLsbD 3 = false)
    refine ⟨run afterCall g, ?_⟩
    rw [deepTrap, trapEntry_eq, reachesMret_append _ _ _ beforeCall_straight]
    refine ⟨0, g, ⟨a, b, rfl, htaken, rfl, hret⟩, ?_⟩
    rw [reachesMret_append _ _ _ afterCall_straight]
    rfl

/-- With `t0 = sp` and room below it: three traps are taken inside of one
another, and the outermost one is transparent. -/
theorem trap_transparent_iff_clean : ∃ h h', deepTrap (fun _ => True) clobber 3 h h' ∧
    TransparentTrap (fun _ => True) clobber 3 h ∧ Transparent (fun _ => True) h h' := by
  let h : Hart := ⟨fun _ => 4096, fun _ => 0, 0, 0⟩
  have hsp : (h.read sp).toNat = 4096 := by decide
  obtain ⟨h', hdeep⟩ := deepTrap_clobber 3 h (by rw [hsp]; decide)
  have htrap : TransparentTrap (fun _ => True) clobber 3 h :=
    (trap_transparent_iff clobber_obeys 3 h fun _ _ => trivial).mpr ⟨rfl, by rw [hsp]; decide⟩
      fun _ => 0
  exact ⟨h, h', hdeep, htrap, htrap.transparent h' (trap_of_deepTrap hdeep)⟩

/-- An interrupted state with `t0 = 1` and `sp = 4096`. -/
def interruptedHart : Hart where
  x := fun r => if r = sp then 4096 else if r = t0 then 1 else 0
  mem := fun _ => 0
  mepc := 0
  mstatus := 0

/-- The trap is not transparent: it returns with `sp` in `t0`. -/
theorem trap_clobbers_t0 :
    interruptedHart.read t0 = 1 ∧ ¬ TransparentTrap (fun _ => True) clobber 0 interruptedHart ∧
      ∀ h', trap (fun _ => True) clobber 0 interruptedHart h' → h'.read t0 = 4096 := by
  have hsp : interruptedHart.read sp = 4096 := rfl
  have ht0 : interruptedHart.read t0 = 1 := rfl
  refine ⟨ht0, fun htrap => ?_, fun h' htrap => ?_⟩
  · have heq := (frame_iff interruptedHart).mp htrap.frame
    rw [ht0, hsp] at heq
    cases heq
  · have hconv := (trap_conv clobber_obeys 0).1
    rw [trap_eq] at htrap
    have hregs := (trap_result hconv (by rw [hsp]; decide) (fun _ _ => trivial) htrap).1
    rw [hregs t0, clobbered, if_pos rfl, hsp]

end RtAsync

/-
# One stack for all executors

All executors run on the stack of `main`: a trap continues below the
activation that it interrupts, with the frame of `__trap_entry` in between.
An executor is not run inside its own `run`, and its activation is gone when a
less urgent one goes on, so each has its part of the stack at most once. A
handler that leaves the interrupts disabled is interrupted by nothing, so one
handler is on the stack at a time. What the stack must hold is then what
`main`, each executor once and one handler use, each but `main` with its frame.

A handler that enables interrupts is interrupted by the next one, and that to
any depth (`handlers_nest`).

Key definitions: `trapBase`, `stackPointer`, `StackBudget`, `Kernel.Shallow`,
`Kernel.keepsMasked`.
Key theorems: `stackPointer_bounds`, `Kernel.Shallow.next`,
`StackBudget.used_le`, `Kernel.shared_stack`.
-/
import Mathlib.Algebra.BigOperators.Group.Finset.Basic
import Mathlib.Algebra.Order.BigOperators.Group.Finset
import RtAsync.Arch.TrapEntry
import RtAsync.Executor.Quiesce

namespace RtAsync

open Rv64 (Word)

variable {N : ℕ} {T V : Type}

/-! ### The stack pointer -/

/-- `sp` below the frame of `__trap_entry`. -/
def trapBase (w : Word) : Word := (w + BitVec.ofInt 64 (-272)) &&& BitVec.ofInt 64 (-16)

theorem beforeCall_sp (h : Rv64.Hart) : (Rv64.run beforeCall h).read sp = trapBase (h.read sp) :=
  (run_beforeCall h).1

/-- The frame and what its alignment skips. -/
def trapBytes : ℕ := 272 + 15

theorem trapBase_bounds {w : Word} (hw : trapBytes ≤ w.toNat) :
    w.toNat ≤ (trapBase w).toNat + trapBytes ∧ (trapBase w).toNat ≤ w.toNat := by
  have hlt := w.isLt
  have hbase : (trapBase w).toNat = (w.toNat + (2 ^ 64 - 272)) % 2 ^ 64 / 16 * 16 := by
    rw [trapBase, toNat_and_neg16, BitVec.toNat_add]
    rfl
  unfold trapBytes at hw ⊢
  omega

/-- `sp` where the activations, innermost first, have used so many bytes each.
`main` starts at `top`, the others below a frame. -/
def stackPointer (top : Word) : List (Frame N T V × ℕ) → Word
  | [] => top
  | (f, used) :: l =>
    (if f.isBase then stackPointer top l else trapBase (stackPointer top l)) - BitVec.ofNat 64 used

/-- What an activation takes of the stack, with its frame. The alignment of the
frame is counted as the most that it can skip, so the sum over the activations
bounds what `sp` has gone down, and `sp` may be higher. -/
def taken (x : Frame N T V × ℕ) : ℕ := x.2 + if x.1.isBase then 0 else trapBytes

/-- With room for all of it, `sp` is what is taken below the top. -/
theorem stackPointer_bounds (top : Word) : ∀ l : List (Frame N T V × ℕ),
    (l.map taken).sum ≤ top.toNat →
    top.toNat ≤ (stackPointer top l).toNat + (l.map taken).sum ∧
      (stackPointer top l).toNat ≤ top.toNat
  | [], _ => ⟨Nat.le_add_right _ _, Nat.le_refl _⟩
  | (f, used) :: l, h => by
    rw [List.map_cons, List.sum_cons] at h ⊢
    obtain ⟨hlow, hhigh⟩ := stackPointer_bounds top l (by omega)
    have htop := top.isLt
    have hsub : ∀ {w : Word}, used ≤ w.toNat → (w - BitVec.ofNat 64 used).toNat = w.toNat - used :=
      fun {w} hw => by
        have hlt := w.isLt
        rw [BitVec.toNat_sub, BitVec.toNat_ofNat]
        omega
    unfold stackPointer
    by_cases hf : f.isBase = true
    · have hused : taken (f, used) = used := by simp [taken, hf]
      rw [hused] at h ⊢
      rw [if_pos hf, hsub (by omega)]
      omega
    · have hused : taken (f, used) = used + trapBytes := by simp [taken, hf]
      rw [hused] at h ⊢
      obtain ⟨hlow', hhigh'⟩ := trapBase_bounds (w := stackPointer top l) (by omega)
      rw [if_neg hf, hsub (by omega)]
      omega

/-! ### Handlers do not nest -/

/-- A handler, or a `MachineSoft` that holds no `RunToken`. -/
def Frame.isHandler (f : Frame N T V) : Bool := !f.isBase && f.token.isNone

/-- No handler is interrupted, and none enables interrupts. -/
structure Kernel.Shallow (k : Kernel N T V) : Prop where
  head : ∀ c fs, k.frames = .isr c :: fs → k.shared.mie = false
  tail : ∀ f fs, k.frames = f :: fs → ∀ g ∈ fs, g.isHandler = false

/-- A handler does not call `enable_interrupts`. -/
def Kernel.keepsMasked (k : Kernel N T V) : Event T V → Bool
  | .setMie true => match k.frames with
    | .isr _ :: _ => false
    | _ => true
  | _ => true

theorem Kernel.Shallow.single {s : Shared N T V} {f : Frame N T V} {fs : List (Frame N T V)}
    (hhead : ∀ c, f = .isr c → s.mie = false) (htail : ∀ g ∈ fs, g.isHandler = false) :
    Kernel.Shallow ⟨s, f :: fs⟩ := by
  refine ⟨fun c gs hg => ?_, fun g gs hg => ?_⟩
  · obtain ⟨hf, -⟩ := List.cons.inj hg
    exact hhead c hf
  · obtain ⟨-, rfl⟩ := List.cons.inj hg
    exact htail

theorem Kernel.Shallow.resume {s : Shared N T V} {fs : List (Frame N T V)}
    (h : ∀ g ∈ fs, g.isHandler = false) : Kernel.Shallow ⟨s, fs⟩ := by
  refine ⟨fun c gs hf => ?_, fun f gs hf g hg => h g ?_⟩
  · have hisr := h (.isr c) (by rw [show fs = .isr c :: gs from hf]; exact List.mem_cons_self)
    cases hisr
  · rw [show fs = f :: gs from hf]
    exact List.mem_cons_of_mem _ hg

theorem Kernel.Shallow.trap {s : Shared N T V} {f g : Frame N T V} {fs : List (Frame N T V)}
    (hk : Kernel.Shallow ⟨s, f :: fs⟩) (hm : Kernel.Masked ⟨s, f :: fs⟩) (hmie : s.mie = true) :
    Kernel.Shallow ⟨{ s with mie := false }, g :: f :: fs⟩ := by
  have hi : f.interruptible = true := hm.head f fs rfl hmie
  refine .single (fun _ _ => rfl) fun h hh => ?_
  rcases List.mem_cons.mp hh with rfl | hh
  · cases h with
    | isr c =>
      have hoff : s.mie = false := hk.head c fs rfl
      rw [hmie] at hoff
      cases hoff
    | base c => rfl
    | run e r => rfl
    | disable e => rfl
    | _ => cases hi
  · exact hk.tail f fs rfl h hh

/-! ### What the activations take -/

/-- The most that `main`, a `MachineSoft` that holds the `RunToken` of a
priority, and any other handler use of the stack. -/
structure StackBudget where
  main : ℕ
  level : ℕ → ℕ
  handler : ℕ

namespace StackBudget

variable (b : StackBudget)

/-- What an activation may use. -/
def allows (f : Frame N T V) : ℕ :=
  if f.isBase then b.main else f.token.elim b.handler fun p => b.level p.value

/-- What the stack of `N` executors must hold. -/
def total (N : ℕ) : ℕ :=
  b.main + ∑ p ∈ Finset.range N, (b.level p + trapBytes) + (b.handler + trapBytes)

/-- Above `main` there are handlers, and one activation for each token. -/
theorem sum_allows : ∀ {fs : List (Frame N T V)}, (∀ f ∈ fs, f.isBase = false) →
    (fs.map fun f => b.allows f + trapBytes).sum =
      ((fs.filterMap Frame.token).map fun p => b.level p.value + trapBytes).sum +
        fs.countP Frame.isHandler * (b.handler + trapBytes)
  | [], _ => by simp
  | f :: fs, h => by
    have hf : f.isBase = false := h f List.mem_cons_self
    rw [List.map_cons, List.sum_cons, sum_allows fun g hg => h g (List.mem_cons_of_mem _ hg),
      List.countP_cons]
    cases ht : f.token with
    | none =>
      have hh : f.isHandler = true := by simp [Frame.isHandler, hf, ht]
      rw [List.filterMap_cons_none ht, if_pos hh, Nat.add_mul, Nat.one_mul]
      simp only [allows, hf, ht, Bool.false_eq_true, if_false, Option.elim_none]
      omega
    | some p =>
      have hh : f.isHandler = false := by simp [Frame.isHandler, ht]
      rw [List.filterMap_cons_some ht, List.map_cons, List.sum_cons, hh]
      simp only [allows, hf, ht, Bool.false_eq_true, if_false, Option.elim_some, Nat.add_zero]
      omega

theorem sum_levels_le {k : Kernel N T V} (hk : Nested k) :
    (k.shared.prioStack.map fun p => b.level p.value + trapBytes).sum ≤
      ∑ p ∈ Finset.range N, (b.level p + trapBytes) := by
  have hnd : (k.shared.prioStack.map Priority.value).Nodup :=
    (List.pairwise_map.mpr hk.sorted).imp fun hlt => Nat.ne_of_lt hlt
  have hsub : (k.shared.prioStack.map Priority.value).toFinset ⊆ Finset.range N := fun p hp => by
    obtain ⟨q, hq, rfl⟩ := List.mem_map.mp (List.mem_toFinset.mp hp)
    exact Finset.mem_range.mpr (hk.lt q hq)
  calc (k.shared.prioStack.map fun p => b.level p.value + trapBytes).sum
      = ((k.shared.prioStack.map Priority.value).map fun p => b.level p + trapBytes).sum := by
        rw [List.map_map]
        rfl
    _ = ∑ p ∈ (k.shared.prioStack.map Priority.value).toFinset, (b.level p + trapBytes) :=
        (List.sum_toFinset _ hnd).symm
    _ ≤ ∑ p ∈ Finset.range N, (b.level p + trapBytes) := Finset.sum_le_sum_of_subset hsub

theorem used_le {k : Kernel N T V} (hn : Nested k) (hg : k.Grounded) (hs : k.Shallow)
    {l : List (Frame N T V × ℕ)} (hl : l.map Prod.fst = k.frames)
    (hle : ∀ x ∈ l, x.2 ≤ b.allows x.1) : (l.map taken).sum ≤ b.total N := by
  obtain ⟨fs, c, hfr, hfs⟩ := hg
  have hone : fs.countP Frame.isHandler ≤ 1 := by
    cases fs with
    | nil => exact Nat.zero_le 1
    | cons f fs =>
      have hnone : fs.countP Frame.isHandler = 0 := List.countP_eq_zero.mpr fun g hg => by
        rw [hs.tail f _ hfr g (List.mem_append_left _ hg)]
        exact Bool.false_ne_true
      rw [List.countP_cons, hnone]
      split <;> omega
  have htok : fs.filterMap Frame.token = k.shared.prioStack := by
    rw [hn.mirror, hfr, List.filterMap_append]
    exact (List.append_nil _).symm
  have htaken : (l.map taken).sum ≤ (k.frames.map fun f =>
      b.allows f + if f.isBase then 0 else trapBytes).sum := by
    rw [← hl, List.map_map]
    exact List.sum_le_sum fun x hx => Nat.add_le_add_right (hle x hx) _
  have habove : (fs.map fun f => b.allows f + if f.isBase then 0 else trapBytes) =
      fs.map fun f => b.allows f + trapBytes :=
    List.map_congr_left fun f hf => by rw [hfs f hf, if_neg Bool.false_ne_true]
  have hlevels := b.sum_levels_le hn
  have hhandler := Nat.mul_le_mul_right (b.handler + trapBytes) hone
  rw [hfr, List.map_append, List.sum_append, habove, b.sum_allows hfs, htok] at htaken
  have hbase : ([Frame.base c].map fun f : Frame N T V =>
      b.allows f + if f.isBase then 0 else trapBytes).sum = b.main := rfl
  unfold total
  omega

end StackBudget

/-! ### Runs -/

variable [DecidableEq T]

theorem Kernel.Shallow.next {s s' : Shared N T V} {f : Frame N T V} {ev : Event T V}
    {fs gs : List (Frame N T V)} (hk : Kernel.Shallow ⟨s, f :: fs⟩)
    (hm : Kernel.Masked ⟨s, f :: fs⟩) (hkeep : Kernel.keepsMasked ⟨s, f :: fs⟩ ev = true)
    (h : Next s f ev s' gs) : Kernel.Shallow ⟨s', gs ++ fs⟩ := by
  have htail : ∀ g ∈ fs, g.isHandler = false := hk.tail f fs rfl
  have hhead : ∀ c, f = .isr c → s.mie = false := fun c hf => hk.head c fs (by rw [hf])
  have hcall : ∀ {c c' : Option (Call N T)}, f.user = some c → s'.mie = s.mie →
      Kernel.Shallow ⟨s', [f.setCall c'] ++ fs⟩ := fun {c c'} hu hmie => by
    refine .single (fun c₁ hf => ?_) htail
    rw [hmie]
    rcases Frame.user_cases hu with rfl | rfl | rfl | ⟨e, t, rfl⟩ | ⟨e, t, rfl⟩
    · cases hf
    · exact hhead c rfl
    · cases hf
    · cases hf
    · cases hf
  cases h with
  | call hu hc => exact hcall hu (callStep_stack hc).2
  | begin hu hc =>
    obtain ⟨⟨tk, rfl⟩, -⟩ := callStart_shared hc
    exact hcall hu rfl
  | setMie b hu hi =>
    refine .single (fun c hf => ?_) htail
    subst hf
    cases b with
    | false => rfl
    | true => cases hkeep
  | trapSoft hmie _ => exact hk.trap hm hmie
  | trapIsr hmie => exact hk.trap hm hmie
  | external => exact .single hhead htail
  | isrRet => exact .resume htail
  | mret => exact .resume htail
  | clear sys =>
    refine .single (fun c hf => ?_) htail
    cases sys <;> cases hf
  | _ => exact .single (fun c hf => by cases hf) htail

namespace Kernel

theorem shallow {es : List (Event T V)} {k : Kernel N T V}
    (hkeep : Transition.Along step (fun (k : Kernel N T V) ev => k.keepsMasked ev = true) init es)
    (he : Transition.exec step init es = some k) : k.Shallow := by
  have hinit : Masked (init (N := N) (T := T) (V := V)) ∧ Shallow (init (N := N) (T := T) (V := V)) :=
    ⟨init_masked, .single (fun c hf => by cases hf) (List.forall_mem_nil _)⟩
  refine ((hkeep.steps he).invariant (I := fun k => Masked k ∧ Shallow k)
    (fun k ev k' ⟨hm, hs⟩ hok hstep => ?_) hinit).2
  obtain ⟨f, fs, s', gs, hk, rfl, hnext⟩ := step_next hstep
  rw [hk] at hm hs hok
  exact ⟨hm.next hnext, hs.next hm hok hnext⟩

/-- **All executors fit on one stack.** If no handler enables interrupts, a
stack of the size of the budget never overflows: every activation has its
`sp` on the stack, however the executors preempt each other and wherever the
handlers interrupt them. -/
theorem shared_stack {es : List (Event T V)} {k : Kernel N T V}
    (hkeep : Transition.Along step (fun (k : Kernel N T V) ev => k.keepsMasked ev = true) init es)
    (he : Transition.exec step init es = some k) (b : StackBudget) {size : ℕ} {top : Word}
    (hsize : b.total N ≤ size) (htop : size ≤ top.toNat) {l : List (Frame N T V × ℕ)}
    (hl : l.map Prod.fst = k.frames) (hle : ∀ x ∈ l, x.2 ≤ b.allows x.1) :
    ∀ l', l' <:+ l → top.toNat - size ≤ (stackPointer top l').toNat ∧
      (stackPointer top l').toNat ≤ top.toNat := by
  rintro l' ⟨l'', rfl⟩
  have hreach := Transition.reach_of_exec es he
  have hused := b.used_le (nested hreach).2 (grounded hreach) (shallow hkeep he) hl hle
  rw [List.map_append, List.sum_append] at hused
  obtain ⟨hlow, hhigh⟩ := stackPointer_bounds top l' (by omega)
  exact ⟨by omega, hhigh⟩

/-- An interrupt of a running executor, on the stack of `main`. -/
theorem shared_stack_isr : ∃ k : Kernel 1 Unit Unit,
    k.frames = [.isr none, .run 0 (.got ()), .base none] ∧
      ∀ l', l' <:+ k.frames.map (fun f => (f, 100)) →
        0x80002000 - 0x2000 ≤ (stackPointer 0x80002000 l').toNat ∧
          (stackPointer 0x80002000 l').toNat ≤ 0x80002000 := by
  let es : List (Event Unit Unit) :=
    .setMie true :: Event.spawnTask ⟨0⟩ () ++ Event.machineSoft ++ [.trapIsr]
  have hkeep : Transition.Along step
      (fun (k : Kernel 1 Unit Unit) ev => k.keepsMasked ev = true) init es := by decide +kernel
  have hsome : (Transition.exec step (init : Kernel 1 Unit Unit) es).map Kernel.frames =
      some [.isr none, .run 0 (.got ()), .base none] := by decide +kernel
  obtain ⟨k, hk, hfr⟩ := Option.map_eq_some_iff.mp hsome
  have hsize : (⟨100, fun _ => 100, 100⟩ : StackBudget).total 1 ≤ 0x2000 := by decide
  have htop : 0x2000 ≤ (0x80002000 : Word).toNat := by decide
  refine ⟨k, hfr, shared_stack hkeep hk _ hsize htop ?_ fun x hx => ?_⟩
  · rw [List.map_map]
    exact List.map_id _
  · obtain ⟨f, -, rfl⟩ := List.mem_map.mp hx
    simp only [StackBudget.allows]
    split
    · exact Nat.le_refl _
    · cases f.token <;> exact Nat.le_refl _

/-- Handlers that enable interrupts nest to any depth. -/
theorem handlers_nest (n : ℕ) : ∃ es : List (Event T V), ∃ k : Kernel N T V,
    Transition.exec step init es = some k ∧ k.frames = List.replicate n (.isr none) ++ [.base none] ∧
      k.shared.mie = true := by
  induction n with
  | zero => exact ⟨[.setMie true], _, rfl, rfl, rfl⟩
  | succ n ih =>
    obtain ⟨es, k, he, hfr, hmie⟩ := ih
    refine ⟨es ++ [.trapIsr, .setMie true],
      ⟨{ k.shared with mie := true }, .isr none :: k.frames⟩, ?_, ?_, rfl⟩
    · rw [Transition.exec_append, he, Option.bind_some]
      cases n with
      | zero => simp [Transition.exec, step, frameStep, hfr, hmie]
      | succ n => simp [Transition.exec, step, frameStep, hfr, hmie, List.replicate_succ]
    · rw [hfr, List.replicate_succ, List.cons_append]

end Kernel
end RtAsync

/-
# Dispatching the external interrupts

`platform/src/irq.rs`: `dispatch_external` claims a source from the interrupt
controller, looks its handler up in `IRQ_TABLE`, calls it and completes the
source. A handler that enables interrupts is interrupted by further dispatches,
and sources may be enabled, disabled and registered at any time.

A controller gives out a source once until it is completed, so a source is not
served inside its own dispatch. A function that is registered for two sources
may well be called inside itself. The controller ignores the completion of a
source that is disabled, though: a handler that leaves its own source disabled
loses it for good.

Key definitions: `InterruptController`, `InterruptController.Lawful`,
`External.step`, `External.Exclusive`, `External.Released`,
`External.completeOk`, `External.InTurn`.
Key theorems: `plic_lawful`, `External.Next.sourceEffect`,
`External.Lost.next`, `External.released_iff`, `External.dispatched_once`.
-/
import Mathlib.Data.List.MinMax
import Mathlib.Logic.Function.Basic
import RtAsync.Lib.Transition

namespace RtAsync

open Function (update update_self update_of_ne)
open Transition (Along Always Reach exec)

/-! ### The source -/

/-- `trait InterruptController`, as a hart uses it, and what there is to see of
its state: the sources that are enabled for the hart, and those that it has
claimed and not completed. `outside` is what the devices and the other harts
do. -/
structure InterruptController (C O : Type) where
  claim : C → ℕ × C
  complete : C → ℕ → C
  enableIrq : C → ℕ → C
  disableIrq : C → ℕ → C
  outside : C → O → C
  enabled : C → ℕ → Bool
  busy : C → ℕ → Bool

/-- `MAX_IRQ`. -/
def maxIrq : ℕ := 96

/-- Where a call of `dispatch_external` stands; `H` are the handlers. -/
inductive Dispatch (H : Type)
  /-- Before `intctl.claim()`. -/
  | claim
  /-- Before `intctl.complete(0)`. -/
  | spurious
  /-- Before `IRQ_TABLE[irq].load`. -/
  | load (irq : ℕ)
  /-- Inside the handler. -/
  | handler (irq : ℕ) (h : H)
  /-- Before `intctl.complete(irq)`. -/
  | complete (irq : ℕ)
  /-- Before the trap returns. -/
  | mret
  deriving DecidableEq

/-- The controller, `IRQ_TABLE`, `mstatus.MIE`, and the dispatches in progress,
innermost first. `claimed` are the sources claimed so far, and `calls` what was
found for each. -/
structure External (C H : Type) where
  intc : C
  table : Fin maxIrq → Option H
  mie : Bool
  dispatches : List (Dispatch H)
  claimed : List ℕ
  calls : List (ℕ × Option H)

inductive ExternalEvent (O H : Type)
  | outside (o : O)
  /-- `MachineExternal` is taken. -/
  | trap
  /-- The next access of the innermost dispatch. -/
  | tick
  /-- The handler returns. -/
  | ret
  | setMie (b : Bool)
  | enableIrq (irq : ℕ)
  | disableIrq (irq : ℕ)
  | registerIrq (irq : ℕ) (h : H)

variable {C O H : Type}

/-- The source that a dispatch has claimed. -/
def Dispatch.irq : Dispatch H → Option ℕ
  | .load irq => some irq
  | .handler irq _ => some irq
  | .complete irq => some irq
  | _ => none

def Dispatch.isHandler : Dispatch H → Bool
  | .handler _ _ => true
  | _ => false

/-- Before it has read `IRQ_TABLE`. -/
def Dispatch.isStarting : Dispatch H → Bool
  | .claim => true
  | .load _ => true
  | _ => false

/-- The source that it is about to look up. -/
def Dispatch.loading : Dispatch H → List ℕ
  | .load irq => [irq]
  | _ => []

namespace External

def init (c : C) : External C H := ⟨c, fun _ => none, false, [], [], []⟩

/-- No dispatch is in progress, or the innermost one is inside its handler. -/
def inUser (k : External C H) : Bool := k.dispatches.head?.all Dispatch.isHandler

def tickStep (intc : InterruptController C O) (k : External C H) (ds : List (Dispatch H)) :
    Dispatch H → Option (External C H)
  | .claim =>
    let (irq, c) := intc.claim k.intc
    if irq = 0 then some { k with intc := c, dispatches := .spurious :: ds }
    else some { k with intc := c, dispatches := .load irq :: ds, claimed := k.claimed ++ [irq] }
  | .spurious => some { k with intc := intc.complete k.intc 0, dispatches := .mret :: ds }
  | .load irq =>
    if hirq : irq < maxIrq then
      match k.table ⟨irq, hirq⟩ with
      | some h => some { k with
          dispatches := .handler irq h :: ds
          calls := k.calls ++ [(irq, some h)] }
      | none => some { k with
          dispatches := .complete irq :: ds
          calls := k.calls ++ [(irq, none)] }
    else none
  | .handler _ _ => none
  | .complete irq => some { k with intc := intc.complete k.intc irq, dispatches := .mret :: ds }
  | .mret => some { k with mie := true, dispatches := ds }

def step (intc : InterruptController C O) (k : External C H) :
    ExternalEvent O H → Option (External C H)
  | .outside o => some { k with intc := intc.outside k.intc o }
  | .trap =>
    if k.mie then some { k with mie := false, dispatches := .claim :: k.dispatches } else none
  | .tick => match k.dispatches with
    | [] => none
    | d :: ds => tickStep intc k ds d
  | .ret => match k.dispatches with
    | .handler irq _ :: ds => some { k with dispatches := .complete irq :: ds }
    | _ => none
  | .setMie b => if k.inUser then some { k with mie := b } else none
  | .enableIrq irq =>
    if k.inUser then some { k with intc := intc.enableIrq k.intc irq } else none
  | .disableIrq irq =>
    if k.inUser then some { k with intc := intc.disableIrq k.intc irq } else none
  | .registerIrq irq h =>
    if hirq : irq < maxIrq then
      if k.inUser then some { k with table := update k.table ⟨irq, hirq⟩ (some h) } else none
    else none

end External

/-! ### What the controller promises -/

/-- What the code relies on. -/
structure InterruptController.Lawful (intc : InterruptController C O) : Prop where
  /-- What is claimed is enabled, and not claimed already. -/
  claim_enabled : ∀ c, (intc.claim c).1 ≠ 0 → intc.enabled c (intc.claim c).1 = true
  claim_free : ∀ c, (intc.claim c).1 ≠ 0 → ¬ intc.busy c (intc.claim c).1 = true
  busy_claim : ∀ {c i}, intc.busy (intc.claim c).2 i = true ↔
    ((intc.claim c).1 ≠ 0 ∧ i = (intc.claim c).1) ∨ intc.busy c i = true
  /-- The completion of a source that is disabled is ignored. -/
  busy_complete : ∀ {c irq i}, intc.busy (intc.complete c irq) i = true ↔
    intc.busy c i = true ∧ ¬ (i = irq ∧ intc.enabled c irq = true)
  busy_enableIrq : ∀ c irq, intc.busy (intc.enableIrq c irq) = intc.busy c
  busy_disableIrq : ∀ c irq, intc.busy (intc.disableIrq c irq) = intc.busy c
  busy_outside : ∀ c o, intc.busy (intc.outside c o) = intc.busy c
  enabled_claim : ∀ c, intc.enabled (intc.claim c).2 = intc.enabled c
  enabled_complete : ∀ c irq, intc.enabled (intc.complete c irq) = intc.enabled c
  enabled_enableIrq : ∀ c irq,
    intc.enabled (intc.enableIrq c irq) = update (intc.enabled c) irq true
  enabled_disableIrq : ∀ c irq,
    intc.enabled (intc.disableIrq c irq) = update (intc.enabled c) irq false
  enabled_outside : ∀ c o, intc.enabled (intc.outside c o) = intc.enabled c

/-! ### A PLIC -/

/-- The sources of a PLIC at the context of a hart. One that is out is not
pending again until it is completed. -/
structure PlicSources where
  enabled : ℕ → Bool
  priority : ℕ → ℕ
  pending : ℕ → Bool
  busy : ℕ → Bool
  gate : ∀ i, pending i = true → busy i = false

namespace PlicSources

/-- The source to claim next, of the sources 1 to `n`. -/
def best (n : ℕ) (c : PlicSources) : Option ℕ :=
  let ready i := c.pending i && c.enabled i && 0 < c.priority i
  ((List.range' 1 n).filter ready).argmax c.priority

/-- A device raises a source. -/
def raise (c : PlicSources) (irq : ℕ) : PlicSources where
  enabled := c.enabled
  priority := c.priority
  pending := update c.pending irq (!c.busy irq)
  busy := c.busy
  gate i hi := by
    by_cases he : i = irq
    · subst he
      simpa using hi
    · rw [update_of_ne he] at hi
      exact c.gate i hi

def claim (n : ℕ) (c : PlicSources) : ℕ × PlicSources :=
  match c.best n with
  | none => (0, c)
  | some irq => (irq, {
      enabled := c.enabled
      priority := c.priority
      pending := update c.pending irq false
      busy := update c.busy irq true
      gate := fun i hi => by
        by_cases he : i = irq
        · subst he
          simp at hi
        · rw [update_of_ne he] at hi ⊢
          exact c.gate i hi })

/-- The completion of a source that is not enabled is ignored. -/
def complete (c : PlicSources) (irq : ℕ) : PlicSources where
  enabled := c.enabled
  priority := c.priority
  pending := c.pending
  busy := update c.busy irq (c.busy irq && !c.enabled irq)
  gate i hi := by
    by_cases he : i = irq
    · subst he
      simp [c.gate i hi]
    · rw [update_of_ne he]
      exact c.gate i hi

end PlicSources

def plic (n : ℕ) : InterruptController PlicSources ℕ where
  claim := PlicSources.claim n
  complete := PlicSources.complete
  enableIrq c irq := { c with enabled := update c.enabled irq true }
  disableIrq c irq := { c with enabled := update c.enabled irq false }
  outside := PlicSources.raise
  enabled := PlicSources.enabled
  busy := PlicSources.busy

theorem PlicSources.best_spec {n irq : ℕ} {c : PlicSources} (h : c.best n = some irq) :
    irq ≠ 0 ∧ c.pending irq = true ∧ c.enabled irq = true := by
  have hmem := List.argmax_mem h
  simp only [List.mem_filter, List.mem_range'_1, Bool.and_eq_true] at hmem
  exact ⟨by omega, hmem.2.1.1, hmem.2.1.2⟩

/-- A claim finds nothing, or takes a source that is enabled and not out. -/
theorem PlicSources.claim_cases (n : ℕ) (c : PlicSources) :
    c.claim n = (0, c) ∨ ∃ c', c.claim n = ((c.claim n).1, c') ∧ (c.claim n).1 ≠ 0 ∧
      c.enabled (c.claim n).1 = true ∧ c.busy (c.claim n).1 = false ∧
      c'.busy = update c.busy (c.claim n).1 true ∧ c'.enabled = c.enabled := by
  unfold claim
  cases hb : c.best n with
  | none => exact Or.inl rfl
  | some irq =>
    obtain ⟨hz, hpending, hen⟩ := best_spec hb
    exact Or.inr ⟨_, rfl, hz, hen, c.gate irq hpending, rfl, rfl⟩

theorem plic_lawful (n : ℕ) : (plic n).Lawful where
  claim_enabled c hz := by
    rcases c.claim_cases n with h | ⟨c', -, -, hen, -⟩
    · exact absurd (congrArg Prod.fst h) hz
    · exact hen
  claim_free c hz := by
    rcases c.claim_cases n with h | ⟨c', -, -, -, hfree, -⟩
    · exact absurd (congrArg Prod.fst h) hz
    · exact Bool.eq_false_iff.mp hfree
  busy_claim {c i} := by
    show (c.claim n).2.busy i = true ↔ ((c.claim n).1 ≠ 0 ∧ i = (c.claim n).1) ∨ c.busy i = true
    rcases c.claim_cases n with h | ⟨c', h, hz, -, -, hbusy, -⟩
    · simp [h]
    · rw [show (c.claim n).2 = c' from congrArg Prod.snd h, hbusy]
      by_cases hi : i = (c.claim n).1
      · simp [hi, hz]
      · simp [hi]
  busy_complete {c irq i} := by
    show update c.busy irq (c.busy irq && !c.enabled irq) i = true ↔
      c.busy i = true ∧ ¬ (i = irq ∧ c.enabled irq = true)
    by_cases hi : i = irq
    · simp [hi]
    · simp [hi]
  busy_enableIrq _ _ := rfl
  busy_disableIrq _ _ := rfl
  busy_outside _ _ := rfl
  enabled_claim c := by
    show (c.claim n).2.enabled = c.enabled
    rcases c.claim_cases n with h | ⟨c', h, -, -, -, -, hen⟩
    · rw [h]
    · rw [show (c.claim n).2 = c' from congrArg Prod.snd h, hen]
  enabled_complete _ _ := rfl
  enabled_enableIrq _ _ := rfl
  enabled_disableIrq _ _ := rfl
  enabled_outside _ _ := rfl

/-! ### One step -/

namespace External

/-- What a step is. -/
inductive Next (intc : InterruptController C O) (k : External C H) :
    ExternalEvent O H → External C H → Prop
  | outside (o : O) : Next intc k (.outside o) { k with intc := intc.outside k.intc o }
  | trap (hmie : k.mie = true) :
      Next intc k .trap { k with mie := false, dispatches := .claim :: k.dispatches }
  | nothing {ds : List (Dispatch H)} (hk : k.dispatches = .claim :: ds)
      (hz : (intc.claim k.intc).1 = 0) :
      Next intc k .tick { k with intc := (intc.claim k.intc).2, dispatches := .spurious :: ds }
  | claim {ds : List (Dispatch H)} (hk : k.dispatches = .claim :: ds)
      (hz : (intc.claim k.intc).1 ≠ 0) :
      Next intc k .tick { k with
        intc := (intc.claim k.intc).2
        dispatches := .load (intc.claim k.intc).1 :: ds
        claimed := k.claimed ++ [(intc.claim k.intc).1] }
  | spurious {ds : List (Dispatch H)} (hk : k.dispatches = .spurious :: ds) :
      Next intc k .tick { k with intc := intc.complete k.intc 0, dispatches := .mret :: ds }
  | load {irq : ℕ} {ds : List (Dispatch H)} (hk : k.dispatches = .load irq :: ds)
      (hirq : irq < maxIrq) :
      Next intc k .tick { k with
        dispatches := ((k.table ⟨irq, hirq⟩).elim (.complete irq) (.handler irq)) :: ds
        calls := k.calls ++ [(irq, k.table ⟨irq, hirq⟩)] }
  | complete {irq : ℕ} {ds : List (Dispatch H)} (hk : k.dispatches = .complete irq :: ds) :
      Next intc k .tick { k with intc := intc.complete k.intc irq, dispatches := .mret :: ds }
  | mret {ds : List (Dispatch H)} (hk : k.dispatches = .mret :: ds) :
      Next intc k .tick { k with mie := true, dispatches := ds }
  | ret {irq : ℕ} {h : H} {ds : List (Dispatch H)} (hk : k.dispatches = .handler irq h :: ds) :
      Next intc k .ret { k with dispatches := .complete irq :: ds }
  | setMie (b : Bool) (hu : k.inUser = true) : Next intc k (.setMie b) { k with mie := b }
  | enableIrq (irq : ℕ) (hu : k.inUser = true) :
      Next intc k (.enableIrq irq) { k with intc := intc.enableIrq k.intc irq }
  | disableIrq (irq : ℕ) (hu : k.inUser = true) :
      Next intc k (.disableIrq irq) { k with intc := intc.disableIrq k.intc irq }
  | registerIrq (irq : Fin maxIrq) (h : H) (hu : k.inUser = true) :
      Next intc k (.registerIrq irq h) { k with table := update k.table irq (some h) }

variable {intc : InterruptController C O} {k k' : External C H} {ev : ExternalEvent O H}

theorem tickStep_next {d : Dispatch H} {ds : List (Dispatch H)} (hk : k.dispatches = d :: ds)
    (h : tickStep intc k ds d = some k') : Next intc k .tick k' := by
  cases d with
  | claim =>
    simp only [tickStep] at h
    by_cases hz : (intc.claim k.intc).1 = 0
    · rw [if_pos hz] at h
      exact Option.some.inj h ▸ .nothing hk hz
    · rw [if_neg hz] at h
      exact Option.some.inj h ▸ .claim hk hz
  | spurious => exact Option.some.inj h ▸ .spurious hk
  | load irq =>
    simp only [tickStep] at h
    by_cases hirq : irq < maxIrq
    · rw [dif_pos hirq] at h
      have hload : Next intc k .tick _ := .load hk hirq
      cases ht : k.table ⟨irq, hirq⟩ with
      | none =>
        rw [ht] at h hload
        exact Option.some.inj h ▸ hload
      | some hd =>
        rw [ht] at h hload
        exact Option.some.inj h ▸ hload
    · rw [dif_neg hirq] at h
      cases h
  | handler irq hd => cases h
  | complete irq => exact Option.some.inj h ▸ .complete hk
  | mret => exact Option.some.inj h ▸ .mret hk

theorem step_next (h : step intc k ev = some k') : Next intc k ev k' := by
  have hguard : ∀ {b : Bool} {x : External C H}, (if b then some x else none) = some k' →
      b = true ∧ x = k' := fun {b x} hb => by
    cases b with
    | true => exact ⟨rfl, Option.some.inj hb⟩
    | false => cases hb
  cases ev with
  | outside o => exact Option.some.inj h ▸ .outside o
  | trap =>
    obtain ⟨hmie, rfl⟩ := hguard h
    exact .trap hmie
  | tick =>
    unfold step at h
    cases hk : k.dispatches with
    | nil =>
      rw [hk] at h
      cases h
    | cons d ds =>
      rw [hk] at h
      exact tickStep_next hk h
  | ret =>
    simp only [step] at h
    split at h
    · rename_i irq hd ds hk
      exact Option.some.inj h ▸ .ret hk
    · cases h
  | setMie b =>
    obtain ⟨hu, rfl⟩ := hguard h
    exact .setMie b hu
  | enableIrq irq =>
    obtain ⟨hu, rfl⟩ := hguard h
    exact .enableIrq irq hu
  | disableIrq irq =>
    obtain ⟨hu, rfl⟩ := hguard h
    exact .disableIrq irq hu
  | registerIrq irq hd =>
    simp only [step] at h
    by_cases hirq : irq < maxIrq
    · rw [dif_pos hirq] at h
      obtain ⟨hu, rfl⟩ := hguard h
      exact .registerIrq ⟨irq, hirq⟩ hd hu
    · rw [dif_neg hirq] at h
      cases h

/-! ### What a step does to the sources -/

/-- The sources that the dispatches in progress have claimed. -/
def serving (k : External C H) : List ℕ := k.dispatches.filterMap Dispatch.irq

/-- No source is completed while it is disabled. -/
def completeOk (intc : InterruptController C O) (k : External C H) : ExternalEvent O H → Bool
  | .tick => match k.dispatches with
    | .complete irq :: _ => intc.enabled k.intc irq
    | _ => true
  | _ => true

/-- A step claims a source, completes one, or does neither. -/
inductive SourceEffect (intc : InterruptController C O) (k : External C H)
    (ev : ExternalEvent O H) (k' : External C H) : Prop
  | keep (hok : completeOk intc k ev = true)
      (hbusy : ∀ i, intc.busy k'.intc i = true ↔ intc.busy k.intc i = true)
      (hserving : k'.serving = k.serving)
  | claim (irq : ℕ) (hok : completeOk intc k ev = true) (hz : irq ≠ 0)
      (hen : intc.enabled k.intc irq = true) (hfree : ¬ intc.busy k.intc irq = true)
      (hbusy : ∀ i, intc.busy k'.intc i = true ↔ i = irq ∨ intc.busy k.intc i = true)
      (hserving : k'.serving = irq :: k.serving)
  | complete (irq : ℕ) (hok : completeOk intc k ev = intc.enabled k.intc irq)
      (hbusy : ∀ i, intc.busy k'.intc i = true ↔
        intc.busy k.intc i = true ∧ ¬ (i = irq ∧ intc.enabled k.intc irq = true))
      (hserving : k.serving = irq :: k'.serving)

theorem serving_cons {d : Dispatch H} {ds : List (Dispatch H)} {irq : ℕ} (hd : d.irq = some irq)
    (hk : k.dispatches = d :: ds) : k.serving = irq :: ds.filterMap Dispatch.irq := by
  rw [serving, hk, List.filterMap_cons_some hd]

theorem serving_skip {d : Dispatch H} {ds : List (Dispatch H)} (hd : d.irq = none)
    (hk : k.dispatches = d :: ds) : k.serving = ds.filterMap Dispatch.irq := by
  rw [serving, hk, List.filterMap_cons_none hd]

theorem Next.sourceEffect (hl : intc.Lawful) (hzero : ¬ intc.busy k.intc 0 = true)
    (h : Next intc k ev k') : SourceEffect intc k ev k' := by
  cases h with
  | outside o => exact .keep rfl (fun i => by rw [hl.busy_outside]) rfl
  | trap hmie => exact .keep rfl (fun _ => Iff.rfl) rfl
  | nothing hk hz =>
    refine .keep (by simp only [completeOk, hk]) (fun i => ?_) (serving_skip rfl hk).symm
    simp [hl.busy_claim, hz]
  | claim hk hz =>
    refine .claim _ (by simp only [completeOk, hk]) hz (hl.claim_enabled _ hz)
      (hl.claim_free _ hz) (fun i => ?_) ?_
    · simp [hl.busy_claim, hz]
    · rw [serving_skip rfl hk]
      rfl
  | spurious hk =>
    refine .keep (by simp only [completeOk, hk]) (fun i => ?_) (serving_skip rfl hk).symm
    rw [hl.busy_complete]
    exact ⟨And.left, fun hi => ⟨hi, fun he => hzero (he.1 ▸ hi)⟩⟩
  | load hk hirq =>
    rename_i irq ds
    refine .keep (by simp only [completeOk, hk]) (fun _ => Iff.rfl) ?_
    rw [serving_cons rfl hk]
    refine serving_cons ?_ rfl
    cases k.table ⟨irq, hirq⟩ <;> rfl
  | complete hk =>
    refine .complete _ (by simp only [completeOk, hk]) (fun _ => hl.busy_complete) ?_
    rw [serving_cons rfl hk]
    rfl
  | mret hk =>
    exact .keep (by simp only [completeOk, hk]) (fun _ => Iff.rfl) (serving_skip rfl hk).symm
  | ret hk => exact .keep rfl (fun _ => Iff.rfl) (serving_cons rfl hk).symm
  | setMie b hu => exact .keep rfl (fun _ => Iff.rfl) rfl
  | enableIrq irq hu => exact .keep rfl (fun i => by rw [hl.busy_enableIrq]) rfl
  | disableIrq irq hu => exact .keep rfl (fun i => by rw [hl.busy_disableIrq]) rfl
  | registerIrq irq hd hu => exact .keep rfl (fun _ => Iff.rfl) rfl

/-! ### One dispatch for a source at a time -/

/-- No source is served twice at a time, and each one is out. -/
structure Exclusive (intc : InterruptController C O) (k : External C H) : Prop where
  nodup : k.serving.Nodup
  busy : ∀ i ∈ k.serving, intc.busy k.intc i = true
  zero : ¬ intc.busy k.intc 0 = true

theorem Exclusive.next (hl : intc.Lawful) (hx : Exclusive intc k) (h : Next intc k ev k') :
    Exclusive intc k' := by
  cases h.sourceEffect hl hx.zero with
  | keep _ hbusy hserving =>
    refine ⟨hserving ▸ hx.nodup, fun i hi => (hbusy i).mpr (hx.busy i (hserving ▸ hi)), ?_⟩
    exact fun hout => hx.zero ((hbusy 0).mp hout)
  | claim irq _ hz _ hfree hbusy hserving =>
    refine ⟨?_, fun i hi => (hbusy i).mpr ?_, fun hout => ?_⟩
    · rw [hserving]
      exact List.nodup_cons.mpr ⟨fun hi => hfree (hx.busy irq hi), hx.nodup⟩
    · exact (List.mem_cons.mp (hserving ▸ hi)).imp_right (hx.busy i)
    · rcases (hbusy 0).mp hout with hirq | hout
      · exact hz hirq.symm
      · exact hx.zero hout
  | complete irq _ hbusy hserving =>
    obtain ⟨hnot, hnd⟩ := List.nodup_cons.mp (hserving ▸ hx.nodup)
    refine ⟨hnd, fun i hi => (hbusy i).mpr ⟨?_, ?_⟩, fun hout => hx.zero ((hbusy 0).mp hout).1⟩
    · exact hx.busy i (hserving ▸ List.mem_cons_of_mem _ hi)
    · exact fun he => hnot (he.1 ▸ hi)

/-! ### Sources that are lost -/

/-- A source that is out is served. -/
def Released (intc : InterruptController C O) (k : External C H) : Prop :=
  ∀ i, intc.busy k.intc i = true → i ∈ k.serving

theorem Released.next (hl : intc.Lawful) (hx : Exclusive intc k) (hr : Released intc k)
    (hok : completeOk intc k ev = true) (h : Next intc k ev k') : Released intc k' := by
  intro i hi
  cases h.sourceEffect hl hx.zero with
  | keep _ hbusy hserving => exact hserving ▸ hr i ((hbusy i).mp hi)
  | claim irq _ hz _ hfree hbusy hserving =>
    exact hserving ▸ List.mem_cons.mpr (((hbusy i).mp hi).imp_right (hr i))
  | complete irq hen hbusy hserving =>
    obtain ⟨hout, hne⟩ := (hbusy i).mp hi
    rcases List.mem_cons.mp (hserving ▸ hr i hout) with rfl | hmem
    · exact absurd ⟨rfl, hen ▸ hok⟩ hne
    · exact hmem

/-- A source that is completed while it is disabled stays out. -/
theorem completeOk_of_released (hl : intc.Lawful) (hx : Exclusive intc k)
    (h : Next intc k ev k') (hr : Released intc k') : completeOk intc k ev = true := by
  cases h.sourceEffect hl hx.zero with
  | keep hok _ _ => exact hok
  | claim irq hok _ _ _ _ _ => exact hok
  | complete irq hen hbusy hserving =>
    obtain ⟨hnot, -⟩ := List.nodup_cons.mp (hserving ▸ hx.nodup)
    have hout : intc.busy k.intc irq = true := hx.busy irq (hserving ▸ List.mem_cons_self)
    rw [hen]
    by_contra hoff
    exact hnot (hr irq ((hbusy irq).mpr ⟨hout, fun he => hoff he.2⟩))

/-- A source that is out and not served. -/
def Lost (intc : InterruptController C O) (i : ℕ) (k : External C H) : Prop :=
  intc.busy k.intc i = true ∧ i ∉ k.serving

theorem Lost.next (hl : intc.Lawful) (hx : Exclusive intc k) {i : ℕ} (hi : Lost intc i k)
    (h : Next intc k ev k') : Lost intc i k' := by
  obtain ⟨hout, hi⟩ := hi
  cases h.sourceEffect hl hx.zero with
  | keep _ hbusy hserving => exact ⟨(hbusy i).mpr hout, hserving ▸ hi⟩
  | claim irq _ hz _ hfree hbusy hserving =>
    refine ⟨(hbusy i).mpr (Or.inr hout), fun hmem => ?_⟩
    rcases List.mem_cons.mp (hserving ▸ hmem) with rfl | hmem
    · exact hfree hout
    · exact hi hmem
  | complete irq _ hbusy hserving =>
    refine ⟨(hbusy i).mpr ⟨hout, fun he => hi ?_⟩, fun hmem => hi ?_⟩
    · exact hserving ▸ he.1 ▸ List.mem_cons_self
    · exact hserving ▸ List.mem_cons_of_mem _ hmem

/-! ### One call for a claim -/

/-- What was found for a source, each time that it was claimed. -/
def callsOf (k : External C H) (i : ℕ) : List (Option H) :=
  (k.calls.filter (·.1 = i)).map Prod.snd

theorem Lost.callsOf {i : ℕ} (hi : Lost intc i k) (h : Next intc k ev k') :
    k'.callsOf i = k.callsOf i := by
  cases h with
  | load hk hirq =>
    rename_i irq ds
    have hne : irq ≠ i := fun he => hi.2 (serving_cons rfl hk ▸ he ▸ List.mem_cons_self)
    simp [External.callsOf, hne]
  | _ => rfl

/-- The source that is claimed and not looked up yet. -/
def loading (k : External C H) : List ℕ := k.dispatches.head?.elim [] Dispatch.loading

theorem loading_cons {d : Dispatch H} {ds : List (Dispatch H)} (hk : k.dispatches = d :: ds) :
    k.loading = d.loading := by
  rw [loading, hk]
  rfl

/-- A dispatch is not interrupted before it calls the handler, so the sources
are looked up in the order in which they are claimed. -/
structure InTurn (k : External C H) : Prop where
  head : k.mie = true → ∀ d ∈ k.dispatches.head?, d.isStarting = false
  tail : ∀ d ∈ k.dispatches.tail, d.isStarting = false
  calls : k.claimed = k.calls.map Prod.fst ++ k.loading

theorem loading_eq_nil (h : ∀ d ∈ k.dispatches.head?, d.isStarting = false) : k.loading = [] := by
  unfold loading
  cases hk : k.dispatches.head? with
  | none => rfl
  | some d =>
    have hd := h d hk
    cases d with
    | load irq => cases hd
    | _ => rfl

/-- Where the table has been read. -/
theorem InTurn.settled (hall : ∀ d ∈ k.dispatches, d.isStarting = false)
    (hcalls : k.claimed = k.calls.map Prod.fst) : InTurn k := by
  have hhead : ∀ d ∈ k.dispatches.head?, d.isStarting = false := fun d hd =>
    hall d (List.mem_of_mem_head? hd)
  refine ⟨fun _ => hhead, fun d hd => hall d (List.mem_of_mem_tail hd), ?_⟩
  rw [loading_eq_nil hhead, List.append_nil]
  exact hcalls

theorem InTurn.below (hi : InTurn k) {d : Dispatch H} {ds : List (Dispatch H)}
    (hk : k.dispatches = d :: ds) : ∀ d' ∈ ds, d'.isStarting = false := fun d' hd' =>
  hi.tail d' (by rw [hk]; exact hd')

theorem InTurn.claimed_eq (hi : InTurn k) {d : Dispatch H} {ds : List (Dispatch H)}
    (hk : k.dispatches = d :: ds) (hd : d.loading = []) : k.claimed = k.calls.map Prod.fst := by
  rw [hi.calls, loading_cons hk, hd, List.append_nil]

theorem InTurn.next (hi : InTurn k) (h : Next intc k ev k') : InTurn k' := by
  have hstart : ∀ {d : Dispatch H} {ds : List (Dispatch H)}, k.dispatches = d :: ds →
      d.isStarting = true → ¬ k.mie = true := fun {d ds} hk hd hmie => by
    have hoff := hi.head hmie d (by rw [hk]; rfl)
    rw [hd] at hoff
    cases hoff
  have hmove : ∀ {d d' : Dispatch H} {ds : List (Dispatch H)}, k.dispatches = d :: ds →
      d'.isStarting = false → ∀ e ∈ d' :: ds, e.isStarting = false := fun hk hd' =>
    List.forall_mem_cons.mpr ⟨hd', hi.below hk⟩
  cases h with
  | outside o => exact ⟨hi.head, hi.tail, hi.calls⟩
  | trap hmie =>
    refine ⟨nofun, fun d hd => ?_, ?_⟩
    · have hd : d ∈ k.dispatches := hd
      cases hk : k.dispatches with
      | nil =>
        rw [hk] at hd
        cases hd
      | cons e ds =>
        rw [hk] at hd
        rcases List.mem_cons.mp hd with rfl | hd
        · exact hi.head hmie d (by rw [hk]; rfl)
        · exact hi.below hk d hd
    · show k.claimed = k.calls.map Prod.fst ++ []
      rw [hi.calls, loading_eq_nil (hi.head hmie)]
  | nothing hk hz =>
    exact .settled (hmove hk rfl) (hi.claimed_eq hk rfl)
  | claim hk hz =>
    refine ⟨fun hmie => absurd hmie (hstart hk rfl), hi.below hk, ?_⟩
    rw [hi.claimed_eq hk rfl]
    rfl
  | spurious hk =>
    exact .settled (hmove hk rfl) (hi.claimed_eq hk rfl)
  | load hk hirq =>
    rename_i irq ds
    refine .settled (hmove hk ?_) ?_
    · cases k.table ⟨irq, hirq⟩ <;> rfl
    · rw [hi.calls, loading_cons hk, List.map_append]
      rfl
  | complete hk =>
    exact .settled (hmove hk rfl) (hi.claimed_eq hk rfl)
  | mret hk =>
    exact .settled (hi.below hk) (hi.claimed_eq hk rfl)
  | ret hk =>
    exact .settled (hmove hk rfl) (hi.claimed_eq hk rfl)
  | setMie b hu =>
    refine ⟨fun _ d hd => ?_, hi.tail, hi.calls⟩
    have hd : d ∈ k.dispatches.head? := hd
    have hhandler : d.isHandler = true := by
      unfold inUser at hu
      rw [hd] at hu
      exact hu
    cases d with
    | handler irq hd => rfl
    | _ => cases hhandler
  | enableIrq irq hu => exact ⟨hi.head, hi.tail, hi.calls⟩
  | disableIrq irq hu => exact ⟨hi.head, hi.tail, hi.calls⟩
  | registerIrq irq hd hu => exact ⟨hi.head, hi.tail, hi.calls⟩

/-! ### Registered handlers -/

/-- The handler that an event registers for a source. -/
def registers (irq : ℕ) : ExternalEvent O H → Option H
  | .registerIrq i h => if i = irq then some h else none
  | _ => none

/-- The handler that was registered last. -/
def lastRegistered (irq : ℕ) (es : List (ExternalEvent O H)) : Option H :=
  (es.filterMap (registers irq)).getLast?

theorem Next.table (h : Next intc k ev k') (irq : Fin maxIrq) :
    k'.table irq = (registers irq ev).or (k.table irq) := by
  cases h with
  | registerIrq i hd hu =>
    by_cases hi : i = irq
    · subst hi
      simp [registers]
    · have hne : (i : ℕ) ≠ irq := fun he => hi (Fin.ext he)
      simp [registers, hne, update_of_ne (Ne.symm hi)]
  | _ => rfl

theorem table_eq {c : C} {es : List (ExternalEvent O H)} {k : External C H}
    (he : exec (step intc) (init c) es = some k) (irq : Fin maxIrq) :
    k.table irq = lastRegistered irq es := by
  induction es using List.reverseRecOn generalizing k with
  | nil =>
    cases he
    rfl
  | append_singleton es ev ih =>
    rw [Transition.exec_append] at he
    obtain ⟨k', he', hs⟩ := Option.bind_eq_some_iff.mp he
    have hstep : step intc k' ev = some k := by simpa [exec] using hs
    rw [(step_next hstep).table irq, ih he', lastRegistered, lastRegistered, List.filterMap_append,
      List.getLast?_append]
    cases hr : registers (irq : ℕ) ev <;> simp [hr]

/-! ### No panic -/

/-- Only sources that have an entry are enabled. -/
def enableOk : ExternalEvent O H → Bool
  | .enableIrq irq => irq < maxIrq
  | _ => true

/-- The sources that are enabled or served have an entry. -/
structure Bounded (intc : InterruptController C O) (k : External C H) : Prop where
  enabled : ∀ i, intc.enabled k.intc i = true → i < maxIrq
  serving : ∀ i ∈ k.serving, i < maxIrq

theorem Next.enabled (hl : intc.Lawful) (h : Next intc k ev k') {i : ℕ}
    (hi : intc.enabled k'.intc i = true) : intc.enabled k.intc i = true ∨ ev = .enableIrq i := by
  cases h with
  | outside o => exact Or.inl (hl.enabled_outside _ o ▸ hi)
  | nothing hk hz => exact Or.inl (hl.enabled_claim _ ▸ hi)
  | claim hk hz => exact Or.inl (hl.enabled_claim _ ▸ hi)
  | spurious hk => exact Or.inl (hl.enabled_complete _ _ ▸ hi)
  | complete hk => exact Or.inl (hl.enabled_complete _ _ ▸ hi)
  | enableIrq irq hu =>
    simp only [hl.enabled_enableIrq] at hi
    by_cases he : i = irq
    · exact Or.inr (he ▸ rfl)
    · rw [update_of_ne he] at hi
      exact Or.inl hi
  | disableIrq irq hu =>
    simp only [hl.enabled_disableIrq] at hi
    by_cases he : i = irq
    · rw [he, update_self] at hi
      cases hi
    · rw [update_of_ne he] at hi
      exact Or.inl hi
  | _ => exact Or.inl hi

theorem Bounded.next (hl : intc.Lawful) (hx : Exclusive intc k) (hb : Bounded intc k)
    (hok : enableOk ev = true) (h : Next intc k ev k') : Bounded intc k' := by
  refine ⟨fun i hi => ?_, fun i hi => ?_⟩
  · rcases h.enabled hl hi with hen | rfl
    · exact hb.enabled i hen
    · exact of_decide_eq_true hok
  · cases h.sourceEffect hl hx.zero with
    | keep _ _ hserving => exact hb.serving i (hserving ▸ hi)
    | claim irq _ _ hen _ _ hserving =>
      rcases List.mem_cons.mp (hserving ▸ hi) with rfl | hmem
      · exact hb.enabled i hen
      · exact hb.serving i hmem
    | complete irq _ _ hserving => exact hb.serving i (hserving ▸ List.mem_cons_of_mem _ hi)

/-- A dispatch goes on, up to its handler and after it. -/
theorem Bounded.tick_isSome (hb : Bounded intc k) {d : Dispatch H} {ds : List (Dispatch H)}
    (hk : k.dispatches = d :: ds) (hd : d.isHandler = false) : (step intc k .tick).isSome := by
  simp only [step, hk]
  cases d with
  | claim =>
    simp only [tickStep]
    split <;> rfl
  | load irq =>
    have hirq : irq < maxIrq := hb.serving irq (serving_cons rfl hk ▸ List.mem_cons_self)
    simp only [tickStep, dif_pos hirq]
    cases k.table ⟨irq, hirq⟩ <;> rfl
  | handler irq h => cases hd
  | _ => rfl

/-! ### Runs -/

section Runs

variable {c : C} {es : List (ExternalEvent O H)}

theorem exclusive_init (h₀ : ∀ i, intc.busy c i = false) :
    Exclusive intc (init (H := H) c) where
  nodup := List.nodup_nil
  busy := List.forall_mem_nil _
  zero := by simp [init, h₀]

theorem exclusive (hl : intc.Lawful) (h₀ : ∀ i, intc.busy c i = false)
    (hr : Reach (step intc) (init c) k) : Exclusive intc k :=
  hr.invariant (fun _ _ _ hx hs => hx.next hl (step_next hs)) (exclusive_init h₀)

theorem inTurn (hr : Reach (step intc) (init c) k) : InTurn k :=
  hr.invariant (fun _ _ _ hi hs => hi.next (step_next hs))
    (.settled (List.forall_mem_nil _) rfl)

theorem bounded (hl : intc.Lawful) (h₀ : ∀ i, intc.busy c i = false)
    (hen : ∀ i, intc.enabled c i = true → i < maxIrq)
    (hok : Along (step intc) (fun _ ev => enableOk ev = true) (init c) es)
    (he : exec (step intc) (init c) es = some k) : Bounded intc k := by
  refine ((hok.steps he).invariant (I := fun k => Exclusive intc k ∧ Bounded intc k)
    (fun k ev k' ⟨hx, hb⟩ hok hs => ?_) ⟨exclusive_init h₀, hen, List.forall_mem_nil _⟩).2
  exact ⟨hx.next hl (step_next hs), hb.next hl hx hok (step_next hs)⟩

theorem lost_run (hl : intc.Lawful) {i : ℕ} (hx : Exclusive intc k) (hi : Lost intc i k)
    (he : exec (step intc) k es = some k') : Lost intc i k' ∧ k'.callsOf i = k.callsOf i := by
  have hsame := (Transition.reach_of_exec es he).invariant
    (I := fun k' => Exclusive intc k' ∧ Lost intc i k' ∧ k'.callsOf i = k.callsOf i)
    (fun _ _ _ ⟨hx, hi, hc⟩ hs => ⟨hx.next hl (step_next hs), hi.next hl hx (step_next hs),
      (hi.callsOf (step_next hs)).trans hc⟩)
    ⟨hx, hi, rfl⟩
  exact hsame.2

/-- **No source is lost** exactly if none is completed while it is disabled,
and one that is lost is not dispatched any more. -/
theorem released_iff (hl : intc.Lawful) (h₀ : ∀ i, intc.busy c i = false) :
    (Always (step intc) (Released intc) (init c) es ↔
      Along (step intc) (fun k ev => completeOk intc k ev = true) (init c) es) ∧
    ∀ k, exec (step intc) (init c) es = some k → ∀ i, Lost intc i k → ∀ es' k',
      exec (step intc) k es' = some k' → Lost intc i k' ∧ k'.callsOf i = k.callsOf i := by
  have hinit : Released intc (init (H := H) c) := fun i hi => by
    rw [show (init (H := H) c).intc = c from rfl, h₀ i] at hi
    cases hi
  constructor
  · refine Transition.always_iff_along (I := fun k => Exclusive intc k ∧ Released intc k)
      (fun _ h => h.2) (fun k ev k' ⟨hx, hr⟩ hok hs => ?_) (fun k ev k' ⟨hx, _⟩ hs hr => ?_)
      ⟨exclusive_init h₀, hinit⟩
    · exact ⟨hx.next hl (step_next hs), hr.next hl hx hok (step_next hs)⟩
    · exact completeOk_of_released hl hx (step_next hs) hr
  · intro k he i hi es' k' he'
    exact lost_run hl (exclusive hl h₀ (Transition.reach_of_exec es he)) hi he'

/-- **One call for a claim.** Whatever handlers do, no source is dispatched
inside its own dispatch (two sources that share a function are two), each claim is looked up once, in the order of the
claims, and finds the handler that was registered last. With only sources below
`MAX_IRQ` enabled no dispatch panics. -/
theorem dispatched_once (hl : intc.Lawful) (h₀ : ∀ i, intc.busy c i = false)
    (he : exec (step intc) (init c) es = some k) :
    k.serving.Nodup ∧ k.claimed = k.calls.map Prod.fst ++ k.loading ∧
    (∀ irq ds, k.dispatches = .load irq :: ds → ∀ k', step intc k .tick = some k' →
      k'.calls = k.calls ++ [(irq, lastRegistered irq es)]) ∧
    ((∀ i, intc.enabled c i = true → i < maxIrq) →
      Along (step intc) (fun _ ev => enableOk ev = true) (init c) es →
      ∀ d ds, k.dispatches = d :: ds → d.isHandler = false → (step intc k .tick).isSome) := by
  have hr := Transition.reach_of_exec es he
  refine ⟨(exclusive hl h₀ hr).nodup, (inTurn hr).calls, fun irq ds hk k' hs => ?_,
    fun hen hok d ds hk hd => (bounded hl h₀ hen hok he).tick_isSome hk hd⟩
  simp only [step, hk, tickStep] at hs
  by_cases hirq : irq < maxIrq
  · have htable := table_eq he ⟨irq, hirq⟩
    rw [dif_pos hirq] at hs
    cases ht : k.table ⟨irq, hirq⟩ with
    | none =>
      rw [ht] at hs htable
      rw [← htable, ← Option.some.inj hs]
    | some hd =>
      rw [ht] at hs htable
      rw [← htable, ← Option.some.inj hs]
  · rw [dif_neg hirq] at hs
    cases hs

end Runs

/-! ### Two runs -/

/-- After the probe: nothing is enabled. -/
def plicInit : PlicSources := ⟨fun _ => false, fun _ => 1, fun _ => false, fun _ => false, nofun⟩

/-- Source 3 is served up to its handler. -/
def serveThree : List (ExternalEvent ℕ Unit) :=
  [.registerIrq 3 (), .enableIrq 3, .setMie true, .outside 3, .trap, .tick, .tick]

/-- A handler that disables its own source. -/
theorem released_iff_disabled : ¬ Always (step (plic 4)) (Released (plic 4)) (init plicInit)
    (serveThree ++ [.disableIrq 3, .ret, .tick]) := fun h =>
  absurd ((released_iff (plic_lawful 4) fun _ => rfl).1.mp h) (by decide)

/-- A handler that is interrupted. -/
theorem dispatched_once_nested : ∃ k : External PlicSources Unit,
    k.dispatches = [.handler 2 (), .handler 3 ()] ∧ k.serving.Nodup := by
  let es : List (ExternalEvent ℕ Unit) :=
    serveThree ++ [.registerIrq 2 (), .enableIrq 2, .setMie true, .outside 2, .trap, .tick, .tick]
  have hsome : (exec (step (plic 4)) (init plicInit) es).map dispatches =
      some [.handler 2 (), .handler 3 ()] := by decide
  obtain ⟨k, hk, hds⟩ := Option.map_eq_some_iff.mp hsome
  exact ⟨k, hds, (dispatched_once (plic_lawful 4) (fun _ => rfl) hk).1⟩

end External
end RtAsync

/-
# Configuring the interrupt controller

`platform/src/drivers/plic_sifive.rs`. The enable bits of a context are packed
into words, and a driver sets and clears a bit by a read and a write; the
harts share the controller, so between the two another hart may access it. A
driver works on the context of its hart with interrupts disabled, so one
access of its own does not come between the two of another. Each hart runs an
image of the driver of its own: `CONTEXT` is one static, which the probe sets
to the context of the hart that runs it.

Whatever the order of the accesses of all harts, the controller ends up as if
each call had been one step: the words of different contexts are different,
and none of them is a priority or a threshold. So a hart's enable bits are
what its own last calls made them.

Key definitions: `Plic.enableAddr`, `PlicBus.step`, `Controller.apply`,
`PlicBus.controller`, `PlicBus.label`.
Key theorems: `Plic.enableAddr_inj`, `PlicBus.refines`, `PlicBus.configures`.
-/
import Mathlib.Logic.Function.Basic
import RtAsync.Lib.Refinement
import RtAsync.Lib.Word

namespace RtAsync

open Function (update update_self update_of_ne)
open Transition (Refines Run exec trace)

/-! ### The source -/

/-- A source of the controller: it has 1023, and 0 is none. -/
abbrev Irq := Fin 1024

/-- A hart, by its id; its contexts have room before the thresholds. -/
abbrev Hart := Fin 7936

namespace Plic

/-- `probe`: the context of a hart in machine mode. -/
def context (hart : Hart) : ℕ := hart * 2

/-- `priority_regs`, with the offset from `BASE`. -/
def priorityAddr (irq : Irq) : ℕ := 0x0000 + irq * 4

/-- `enable_regs`. -/
def enableAddr (hart : Hart) (irq : Irq) : ℕ := 0x2000 + context hart * 0x80 + (irq / 32) * 4

/-- `ctx_regs`, whose first word is the threshold. -/
def thresholdAddr (hart : Hart) : ℕ := 0x200000 + context hart * 0x1000

/-- `1u32 << (irq % 32)`. -/
def bit (irq : Irq) : BitVec 32 := 1#32 <<< (irq % 32 : ℕ)

end Plic

/-- A write that a hart has yet to make, after its read: the source, whether it
is enabled, and the word. -/
structure PlicWrite where
  irq : Irq
  enable : Bool
  word : BitVec 32

/-- The words of the controller by their offset from `BASE`, and the write that
each hart has yet to make. -/
structure PlicBus where
  mem : ℕ → BitVec 32
  writes : Hart → Option PlicWrite

/-- What a hart does: a call of the driver, up to its read if it has one, or
the write after it. -/
inductive PlicEvent
  | enableIrq (hart : Hart) (irq : Irq)
  | disableIrq (hart : Hart) (irq : Irq)
  | setPriority (hart : Hart) (irq : Irq) (prio : BitVec 32)
  | setThreshold (hart : Hart) (thr : BitVec 32)
  | write (hart : Hart)

namespace PlicBus

open Plic

/-- A call begins where the hart has nothing to write. -/
def step (s : PlicBus) : PlicEvent → Option PlicBus
  | .enableIrq hart irq => match s.writes hart with
    | some _ => none
    | none =>
      let w : PlicWrite := ⟨irq, true, s.mem (enableAddr hart irq) ||| bit irq⟩
      some { s with writes := update s.writes hart (some w) }
  | .disableIrq hart irq => match s.writes hart with
    | some _ => none
    | none =>
      let w : PlicWrite := ⟨irq, false, s.mem (enableAddr hart irq) &&& ~~~bit irq⟩
      some { s with writes := update s.writes hart (some w) }
  | .setPriority hart irq prio => match s.writes hart with
    | some _ => none
    | none => some { s with mem := update s.mem (priorityAddr irq) prio }
  | .setThreshold hart thr => match s.writes hart with
    | some _ => none
    | none => some { s with mem := update s.mem (thresholdAddr hart) thr }
  | .write hart => match s.writes hart with
    | none => none
    | some w => some { s with
      mem := update s.mem (enableAddr hart w.irq) w.word
      writes := update s.writes hart none }

end PlicBus

/-! ### What the controller is for -/

/-- Which sources each hart takes, above which priority, and the priorities. -/
structure Controller where
  enabled : Hart → Irq → Bool
  threshold : Hart → BitVec 32
  priority : Irq → BitVec 32

inductive Config
  | enable (hart : Hart) (irq : Irq) (on : Bool)
  | threshold (hart : Hart) (thr : BitVec 32)
  | priority (irq : Irq) (prio : BitVec 32)

def Controller.apply (c : Controller) : Config → Controller
  | .enable hart irq on => { c with enabled := update c.enabled hart (update (c.enabled hart) irq on) }
  | .threshold hart thr => { c with threshold := update c.threshold hart thr }
  | .priority irq prio => { c with priority := update c.priority irq prio }

/-! ### The words -/

namespace Plic

theorem enableAddr_inj {hart hart' : Hart} {irq irq' : Irq}
    (h : enableAddr hart irq = enableAddr hart' irq') :
    hart = hart' ∧ (irq : ℕ) / 32 = irq' / 32 := by
  have hi := irq.isLt
  have hi' := irq'.isLt
  unfold enableAddr context at h
  exact ⟨Fin.ext (by omega), by omega⟩

theorem priorityAddr_inj {irq irq' : Irq} (h : priorityAddr irq = priorityAddr irq') : irq = irq' := by
  unfold priorityAddr at h
  exact Fin.ext (by omega)

theorem thresholdAddr_inj {hart hart' : Hart} (h : thresholdAddr hart = thresholdAddr hart') :
    hart = hart' := by
  unfold thresholdAddr context at h
  exact Fin.ext (by omega)

theorem priority_ne_enable (irq irq' : Irq) (hart : Hart) :
    priorityAddr irq ≠ enableAddr hart irq' := by
  have hi := irq.isLt
  unfold priorityAddr enableAddr
  omega

theorem priority_ne_threshold (irq : Irq) (hart : Hart) :
    priorityAddr irq ≠ thresholdAddr hart := by
  have hi := irq.isLt
  unfold priorityAddr thresholdAddr
  omega

theorem enable_ne_threshold (irq : Irq) (hart hart' : Hart) :
    enableAddr hart irq ≠ thresholdAddr hart' := by
  have hi := irq.isLt
  have hh := hart.isLt
  unfold enableAddr thresholdAddr context
  omega

/-- A word with the bit of a source set or cleared. -/
def edit (word : BitVec 32) (irq : Irq) (on : Bool) : BitVec 32 :=
  if on then word ||| bit irq else word &&& ~~~bit irq

/-- Setting or clearing the bit of a source is seen at this source only. -/
theorem getLsbD_edit (word : BitVec 32) (irq irq' : Irq) (on : Bool)
    (h : (irq : ℕ) / 32 = irq' / 32) :
    (edit word irq on).getLsbD (irq' % 32) =
      if irq' = irq then on else word.getLsbD (irq' % 32) := by
  have hmod : (irq' : ℕ) % 32 = irq % 32 ↔ irq' = irq := by
    rw [Fin.ext_iff]
    omega
  have hlt : (irq : ℕ) % 32 < 32 := Nat.mod_lt _ (by decide)
  rw [Bool.eq_iff_iff]
  unfold edit bit
  cases on with
  | true =>
    rw [if_pos rfl, Word.getLsbD_setBit _ hlt, hmod]
    split <;> simp_all
  | false =>
    rw [if_neg Bool.false_ne_true, Word.getLsbD_clearBit _ hlt, Ne, hmod]
    split <;> simp_all

end Plic

/-! ### The calls as single steps -/

/-- The call that an access begins. -/
def PlicEvent.config : PlicEvent → Option Config
  | .enableIrq hart irq => some (.enable hart irq true)
  | .disableIrq hart irq => some (.enable hart irq false)
  | .setPriority _ irq prio => some (.priority irq prio)
  | .setThreshold hart thr => some (.threshold hart thr)
  | .write _ => none

/-- The sources that a hart enables and disables, in order. -/
def enables (hart : Hart) (calls : List Config) : List (Irq × Bool) :=
  calls.filterMap fun
    | .enable h irq on => if h = hart then some (irq, on) else none
    | _ => none

/-- What a hart makes of a source at last. -/
def lastEnable (hart : Hart) (irq : Irq) (calls : List Config) : Option Bool :=
  ((enables hart calls).filter (·.1 = irq)).getLast?.map Prod.snd

theorem enables_cons_self (hart : Hart) (irq : Irq) (on : Bool) (calls : List Config) :
    enables hart (.enable hart irq on :: calls) = (irq, on) :: enables hart calls := by
  simp [enables]

theorem enables_cons_of_ne {hart h : Hart} (hne : h ≠ hart) (irq : Irq) (on : Bool)
    (calls : List Config) : enables hart (.enable h irq on :: calls) = enables hart calls := by
  simp [enables, hne]

theorem enables_append (hart : Hart) (calls calls' : List Config) :
    enables hart (calls ++ calls') = enables hart calls ++ enables hart calls' :=
  List.filterMap_append

theorem Controller.enabled_foldl (hart : Hart) (irq : Irq) : ∀ (calls : List Config) (c : Controller),
    (calls.foldl apply c).enabled hart irq =
      (lastEnable hart irq calls).getD (c.enabled hart irq)
  | [], _ => rfl
  | call :: calls, c => by
    rw [List.foldl_cons, enabled_foldl hart irq calls]
    cases call with
    | enable h i on =>
      by_cases hh : h = hart
      · subst hh
        unfold lastEnable
        rw [enables_cons_self]
        by_cases hi : i = irq
        · subst hi
          have hself : (c.apply (.enable h i on)).enabled h i = on := by simp [apply]
          cases hl : ((enables h calls).filter (·.1 = i)).getLast? <;>
            simp [List.getLast?_cons, hself, hl]
        · have hother : (c.apply (.enable h i on)).enabled h irq = c.enabled h irq := by
            simp [apply, Ne.symm hi]
          simp [hi, hother]
      · have hother : (c.apply (.enable h i on)).enabled hart irq = c.enabled hart irq := by
          simp [apply, Ne.symm hh]
        unfold lastEnable
        rw [enables_cons_of_ne hh, hother]
    | threshold h thr => rfl
    | priority i prio => rfl

namespace PlicBus

open Plic

/-- What the words say. -/
def controller (s : PlicBus) : Controller where
  enabled hart irq := (s.mem (enableAddr hart irq)).getLsbD (irq % 32)
  threshold hart := s.mem (thresholdAddr hart)
  priority irq := s.mem (priorityAddr irq)

/-- The call that takes effect with an access. -/
def label (s : PlicBus) : PlicEvent → Option Config
  | .setPriority _ irq prio => some (.priority irq prio)
  | .setThreshold hart thr => some (.threshold hart thr)
  | .write hart => (s.writes hart).map fun w => .enable hart w.irq w.enable
  | _ => none

/-- What a hart has read is still there. -/
def Current (s : PlicBus) : Prop :=
  ∀ hart w, s.writes hart = some w → w.word = edit (s.mem (enableAddr hart w.irq)) w.irq w.enable

variable {s s' : PlicBus}

/-- A word that is no enable word is written. -/
theorem Current.other (h : s.Current) {addr : ℕ} (word : BitVec 32)
    (hne : ∀ hart irq, enableAddr hart irq ≠ addr) :
    Current { s with mem := update s.mem addr word } := by
  intro hart w hw
  simp only at hw ⊢
  rw [update_of_ne (hne hart w.irq)]
  exact h hart w hw

/-- A hart reads the word of a source. -/
theorem Current.read (h : s.Current) {hart : Hart} {w : PlicWrite}
    (hw : w.word = edit (s.mem (enableAddr hart w.irq)) w.irq w.enable) :
    Current { s with writes := update s.writes hart (some w) } := by
  intro hart' w' hw'
  simp only at hw' ⊢
  by_cases hh : hart' = hart
  · subst hh
    rw [update_self] at hw'
    rw [← Option.some.inj hw']
    exact hw
  · rw [update_of_ne hh] at hw'
    exact h hart' w' hw'

/-- A hart writes: no other hart has read this word. -/
theorem Current.write (h : s.Current) {hart : Hart} {w : PlicWrite} :
    Current { s with
      mem := update s.mem (enableAddr hart w.irq) w.word
      writes := update s.writes hart none } := by
  intro hart' w' hw'
  simp only at hw' ⊢
  by_cases hh : hart' = hart
  · subst hh
    rw [update_self] at hw'
    cases hw'
  · rw [update_of_ne hh] at hw'
    rw [update_of_ne fun he => hh (enableAddr_inj he).1]
    exact h hart' w' hw'

theorem controller_setPriority (s : PlicBus) (irq : Irq) (prio : BitVec 32) :
    controller { s with mem := update s.mem (priorityAddr irq) prio } =
      s.controller.apply (.priority irq prio) := by
  have hen : ∀ hart' irq', update s.mem (priorityAddr irq) prio (enableAddr hart' irq') =
      s.mem (enableAddr hart' irq') := fun hart' irq' =>
    update_of_ne (Ne.symm (priority_ne_enable irq irq' hart')) ..
  have hthr : ∀ hart', update s.mem (priorityAddr irq) prio (thresholdAddr hart') =
      s.mem (thresholdAddr hart') := fun hart' =>
    update_of_ne (Ne.symm (priority_ne_threshold irq hart')) ..
  have hprio : ∀ irq', update s.mem (priorityAddr irq) prio (priorityAddr irq') =
      update s.controller.priority irq prio irq' := fun irq' => by
    by_cases hi : irq' = irq
    · rw [hi, update_self, update_self]
    · rw [update_of_ne hi, update_of_ne fun he => hi (priorityAddr_inj he)]
      rfl
  unfold controller Controller.apply
  simp only [hen, hthr, hprio]
  rfl

theorem controller_setThreshold (s : PlicBus) (hart : Hart) (thr : BitVec 32) :
    controller { s with mem := update s.mem (thresholdAddr hart) thr } =
      s.controller.apply (.threshold hart thr) := by
  have hen : ∀ hart' irq', update s.mem (thresholdAddr hart) thr (enableAddr hart' irq') =
      s.mem (enableAddr hart' irq') := fun hart' irq' =>
    update_of_ne (enable_ne_threshold irq' hart' hart) ..
  have hprio : ∀ irq', update s.mem (thresholdAddr hart) thr (priorityAddr irq') =
      s.mem (priorityAddr irq') := fun irq' => update_of_ne (priority_ne_threshold irq' hart) ..
  have hthr : ∀ hart', update s.mem (thresholdAddr hart) thr (thresholdAddr hart') =
      update s.controller.threshold hart thr hart' := fun hart' => by
    by_cases hh : hart' = hart
    · rw [hh, update_self, update_self]
    · rw [update_of_ne hh, update_of_ne fun he => hh (thresholdAddr_inj he)]
      rfl
  unfold controller Controller.apply
  simp only [hen, hthr, hprio]
  rfl

/-- The write of a hart sets or clears the bit of its source, and no other. -/
theorem controller_write (h : s.Current) {hart : Hart} {w : PlicWrite}
    (hw : s.writes hart = some w) :
    controller { s with
      mem := update s.mem (enableAddr hart w.irq) w.word
      writes := update s.writes hart none } =
      s.controller.apply (.enable hart w.irq w.enable) := by
  have hthr : ∀ hart', update s.mem (enableAddr hart w.irq) w.word (thresholdAddr hart') =
      s.mem (thresholdAddr hart') := fun hart' =>
    update_of_ne (Ne.symm (enable_ne_threshold w.irq hart hart')) ..
  have hprio : ∀ irq, update s.mem (enableAddr hart w.irq) w.word (priorityAddr irq) =
      s.mem (priorityAddr irq) := fun irq => update_of_ne (priority_ne_enable irq w.irq hart) ..
  have hbits : ∀ hart' irq, (update s.mem (enableAddr hart w.irq) w.word
      (enableAddr hart' irq)).getLsbD (irq % 32) =
      update s.controller.enabled hart
        (update (s.controller.enabled hart) w.irq w.enable) hart' irq := fun hart' irq => by
    by_cases he : enableAddr hart' irq = enableAddr hart w.irq
    · obtain ⟨rfl, hword⟩ := enableAddr_inj he
      have hsame : s.mem (enableAddr hart' w.irq) = s.mem (enableAddr hart' irq) := by rw [he]
      rw [he, update_self, update_self, h hart' w hw, getLsbD_edit _ _ _ _ hword.symm, hsame]
      by_cases hi : irq = w.irq
      · rw [if_pos hi, hi, update_self]
      · rw [if_neg hi, update_of_ne hi]
        rfl
    · rw [update_of_ne he]
      by_cases hh : hart' = hart
      · subst hh
        have hne : irq ≠ w.irq := fun hi => he (by rw [hi])
        rw [update_self, update_of_ne hne]
        rfl
      · rw [update_of_ne hh]
        rfl
  unfold controller Controller.apply
  simp only [hthr, hprio, hbits]
  rfl

theorem Current.step (h : s.Current) {e : PlicEvent} (hs : step s e = some s') : s'.Current := by
  cases e with
  | enableIrq hart irq =>
    simp only [PlicBus.step] at hs
    split at hs <;> cases hs
    exact h.read rfl
  | disableIrq hart irq =>
    simp only [PlicBus.step] at hs
    split at hs <;> cases hs
    exact h.read rfl
  | setPriority hart irq prio =>
    simp only [PlicBus.step] at hs
    split at hs <;> cases hs
    exact h.other prio fun hart' irq' => Ne.symm (priority_ne_enable irq irq' hart')
  | setThreshold hart thr =>
    simp only [PlicBus.step] at hs
    split at hs <;> cases hs
    exact h.other thr fun hart' irq' => enable_ne_threshold irq' hart' hart
  | write hart =>
    simp only [PlicBus.step] at hs
    split at hs <;> cases hs
    exact h.write

/-- **The calls of all harts take effect one after the other**, those that read
and write as the others. -/
theorem refines : Refines step Current controller label fun c call c' => c' = c.apply call where
  keep _ _ _ h hs := h.step hs
  seen s e s' call h hs hl := by
    cases e with
    | enableIrq hart irq => cases hl
    | disableIrq hart irq => cases hl
    | setPriority hart irq prio =>
      cases hl
      simp only [step] at hs
      split at hs <;> cases hs
      exact controller_setPriority s irq prio
    | setThreshold hart thr =>
      cases hl
      simp only [step] at hs
      split at hs <;> cases hs
      exact controller_setThreshold s hart thr
    | write hart =>
      simp only [step] at hs
      split at hs
      · cases hs
      · rename_i w hw
        cases hs
        simp only [label, hw, Option.map_some, Option.some.injEq] at hl
        rw [← hl]
        exact controller_write h hw
  hidden s e s' h hs hl := by
    cases e with
    | enableIrq hart irq =>
      simp only [step] at hs
      split at hs <;> cases hs
      rfl
    | disableIrq hart irq =>
      simp only [step] at hs
      split at hs <;> cases hs
      rfl
    | setPriority hart irq prio => cases hl
    | setThreshold hart thr => cases hl
    | write hart =>
      simp only [step] at hs
      split at hs
      · cases hs
      · rename_i w hw
        simp [label, hw] at hl

/-! ### The order of the calls -/

/-- What a hart has begun to enable or disable. -/
def begun (s : PlicBus) (hart : Hart) : List (Irq × Bool) :=
  (s.writes hart).toList.map fun w => (w.irq, w.enable)

/-- An access of a hart: the call that it begins is its last. -/
theorem begun_step (hart : Hart) {e : PlicEvent} (hs : step s e = some s') :
    s.begun hart ++ enables hart e.config.toList =
      enables hart (label s e).toList ++ s'.begun hart := by
  cases e with
  | enableIrq h irq =>
    simp only [step] at hs
    split at hs <;> cases hs
    rename_i hnone
    by_cases hh : h = hart
    · subst hh
      simp [begun, PlicEvent.config, label, enables, hnone]
    · simp [begun, PlicEvent.config, label, enables, hh, Ne.symm hh]
  | disableIrq h irq =>
    simp only [step] at hs
    split at hs <;> cases hs
    rename_i hnone
    by_cases hh : h = hart
    · subst hh
      simp [begun, PlicEvent.config, label, enables, hnone]
    · simp [begun, PlicEvent.config, label, enables, hh, Ne.symm hh]
  | setPriority h irq prio =>
    simp only [step] at hs
    split at hs <;> cases hs
    simp [begun, PlicEvent.config, label, enables]
  | setThreshold h thr =>
    simp only [step] at hs
    split at hs <;> cases hs
    simp [begun, PlicEvent.config, label, enables]
  | write h =>
    simp only [step] at hs
    split at hs
    · cases hs
    · rename_i w hw
      cases hs
      by_cases hh : h = hart
      · subst hh
        simp [begun, PlicEvent.config, label, enables, hw]
      · simp [begun, PlicEvent.config, label, enables, hw, hh, Ne.symm hh]

/-- The calls of a hart take effect in its order, but for the one it has begun. -/
theorem begun_run (hart : Hart) : ∀ {es : List PlicEvent} {s s' : PlicBus},
    exec step s es = some s' →
    s.begun hart ++ enables hart (es.filterMap PlicEvent.config) =
      enables hart (trace step label s es) ++ s'.begun hart
  | [], s, s', he => by
    cases he
    simp [enables, trace]
  | e :: es, s, s', he => by
    obtain ⟨t, ht, he⟩ := Option.bind_eq_some_iff.mp he
    have hcons : (e :: es).filterMap PlicEvent.config =
        e.config.toList ++ es.filterMap PlicEvent.config := by
      cases hc : e.config <;> simp [hc]
    calc s.begun hart ++ enables hart ((e :: es).filterMap PlicEvent.config)
        = s.begun hart ++ enables hart e.config.toList ++
            enables hart (es.filterMap PlicEvent.config) := by
          rw [hcons, enables_append, List.append_assoc]
      _ = enables hart (label s e).toList ++ (t.begun hart ++
            enables hart (es.filterMap PlicEvent.config)) := by
          rw [begun_step hart ht, List.append_assoc]
      _ = enables hart (trace step label s (e :: es)) ++ s'.begun hart := by
          rw [begun_run hart he, trace, ht, Option.elim_some, enables_append, List.append_assoc]

/-- **A hart gets what it asked for**, whatever the harts do in between. The
controller is as the calls make it one after the other; and a source is enabled
for a hart that is in no call if its own last call for the source enabled it. -/
theorem configures {mem : ℕ → BitVec 32} {es : List PlicEvent} {s : PlicBus}
    (he : exec step ⟨mem, fun _ => none⟩ es = some s) :
    s.controller =
        (trace step label ⟨mem, fun _ => none⟩ es).foldl Controller.apply
          (controller ⟨mem, fun _ => none⟩) ∧
      ∀ hart irq, s.writes hart = none →
        (s.mem (enableAddr hart irq)).getLsbD (irq % 32) =
          (lastEnable hart irq (es.filterMap PlicEvent.config)).getD
            ((mem (enableAddr hart irq)).getLsbD (irq % 32)) := by
  have hcur : Current ⟨mem, fun _ => none⟩ := fun _ _ hw => by cases hw
  have hfold := (refines.run hcur he).foldl
  refine ⟨hfold, fun hart irq hnone => ?_⟩
  have hown : enables hart (es.filterMap PlicEvent.config) =
      enables hart (trace step label ⟨mem, fun _ => none⟩ es) := by
    have h := begun_run hart he
    simpa [begun, hnone] using h
  have hlast := Controller.enabled_foldl hart irq (trace step label ⟨mem, fun _ => none⟩ es)
    (controller ⟨mem, fun _ => none⟩)
  rw [← hfold] at hlast
  unfold lastEnable at hlast ⊢
  rw [hown]
  exact hlast

/-- Hart 1 reads between the read and the write of hart 0, which then disables
another source of the same word. -/
theorem configures_interleaved : ∃ s : PlicBus,
    exec step ⟨fun _ => 0xff, fun _ => none⟩
        [.enableIrq 0 42, .enableIrq 1 10, .write 0, .disableIrq 0 43, .write 1, .write 0] = some s ∧
      s.writes 0 = none ∧ (s.mem (enableAddr 0 42)).getLsbD (42 % 32) = true := by
  let es : List PlicEvent :=
    [.enableIrq 0 42, .enableIrq 1 10, .write 0, .disableIrq 0 43, .write 1, .write 0]
  have he : (exec step ⟨fun _ => 0xff, fun _ => none⟩ es).isSome = true := rfl
  obtain ⟨s, hs⟩ := Option.isSome_iff_exists.mp he
  have hnone : s.writes 0 = none := by
    cases hs
    rfl
  exact ⟨s, hs, hnone, (configures hs).2 0 42 hnone⟩

end PlicBus
end RtAsync

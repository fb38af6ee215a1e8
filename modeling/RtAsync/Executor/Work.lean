/-
# The work that an input makes

What comes to the kernel from outside: a call of user code, a future that
returns `Ready`, an interrupt of a device or of another hart. Everything else
is work of the kernel: the accesses of a call, the statements of `MachineSoft`
and of `run`, a poll that returns `Pending`, the return of a handler, and the
software interrupt when it is taken. Every input pays for the work that it
makes, however deep the executors are nested: a run has at most 21 steps for
each of its inputs.

Links and activations are worth the steps that they still need. So is an
executor that has a task and that no activation has entered yet: a
`MachineSoft` goes once through its loop for it. And so is a software interrupt
that is pending and for which no `MachineSoft` is on its way to `clear_pend`.

Key definitions: `Event.isInput`, `Call.cost`, `Frame.cost`, `Shared.cost`,
`Kernel.cost`.
Key theorems: `callStep_cost`, `notifyLocked_cost`, `Next.cost`,
`Kernel.pays`, `Kernel.work_amortised`.
-/
import RtAsync.Lib.Potential
import RtAsync.Executor.ExternalMsi
import RtAsync.Executor.Drain

namespace RtAsync

open Function (update update_self update_of_ne)

variable {N : ℕ} {T V : Type}

/-! ### Inputs -/

/-- The event comes from outside of the kernel. -/
def Event.isInput : Event T V → Bool
  | call _ => true
  | ready _ => true
  | setMie _ => true
  | trapIsr => true
  | external => true
  | _ => false

/-! ### What is still to be done -/

/-- The accesses of a call. A push makes a link, maybe in a queue that was
empty, and a pend that is sent. -/
def Call.cost : Call N T → ℕ
  | .wake _ => 20
  | .wakeFlag _ _ => 19
  | .wakePush _ _ => 18
  | .pendMark => 8
  | .pendSend => 7
  | .spawnFlag _ _ => 18
  | .spawnPush _ _ => 17
  | .spawnPend => 7
  | .storageFlag _ => 5
  | .storageResult _ => 4
  | .storageWaker _ => 3
  | .storageFn _ => 2
  | .storageWrite _ => 1
  | .joinTake _ _ => 2
  | .joinStore _ _ => 1

namespace Frame

/-- The statements of an activation. A completion ends with the wake of the
join handle, which may push and pend. -/
def cost : Frame N T V → ℕ
  | base c => c.elim 0 Call.cost
  | isr c => 1 + c.elim 0 Call.cost
  | hook c => 5 + c.elim 0 Call.cost
  | swap => 4
  | clear _ => 3
  | tryPreempt => 2
  | enable _ => 7
  | run _ .start => 6
  | run _ .top => 5
  | run _ (.got _) => 7
  | run _ (.poll _ c) => 6 + c.elim 0 Call.cost
  | run _ (.storeResult _ _) => 25
  | run _ (.storeNull _) => 24
  | run _ (.dropInPlace _ c) => 23 + c.elim 0 Call.cost
  | run _ (.storeExited _) => 22
  | run _ (.notify _) => 21
  | disable _ => 4
  | completeExecutor _ => 3
  | mret => 1

/-- The executor that an activation has a token for, up to its last dequeue. -/
def entered : Frame N T V → Option (Fin N)
  | enable rt => if h : rt.value < N then some ⟨rt.value, h⟩ else none
  | run e _ => some e
  | _ => none

theorem cost_setCall {f : Frame N T V} {c : Option (Call N T)} (h : f.user = some c)
    (c' : Option (Call N T)) :
    (f.setCall c').cost + c.elim 0 Call.cost = f.cost + c'.elim 0 Call.cost := by
  rcases user_cases h with rfl | rfl | rfl | ⟨e, t, rfl⟩ | ⟨e, t, rfl⟩
  · simp only [setCall, cost]
    omega
  · simp only [setCall, cost]
    omega
  · simp only [setCall, cost]
    omega
  · simp only [setCall, cost]
    omega
  · simp only [setCall, cost]
    omega

/-- An executor that has been entered is on the priority stack. -/
theorem token_of_entered {f : Frame N T V} {e : Fin N} (h : f.entered = some e) :
    f.token = some ⟨e⟩ := by
  cases f with
  | enable rt =>
    simp only [entered] at h
    split at h
    · rw [← Option.some.inj h]
      rfl
    · cases h
  | run e' r =>
    obtain rfl := Option.some.inj h
    rfl
  | _ => cases h

theorem setCall_entered {f : Frame N T V} (c : Option (Call N T)) :
    (f.setCall c).entered = f.entered := by
  unfold setCall
  split <;> rfl

end Frame

namespace Shared

/-- The executors with a task that nobody has entered. -/
def waiting (s : Shared N T V) (es : List (Fin N)) : Finset (Fin N) :=
  Finset.univ.filter fun e => s.queue e ≠ [] ∧ e ∉ es

/-- What the queues and the pending interrupt are worth, where the executors
`es` have been entered and `ack` is whether the interrupt is being cleared. -/
def cost (s : Shared N T V) (es : List (Fin N)) (ack : Bool) : ℕ :=
  3 * s.size + 6 * (s.waiting es).card + if s.msip && !ack then 6 else 0

end Shared

/-- The executors that have been entered, innermost first. -/
def Kernel.entered (k : Kernel N T V) : List (Fin N) := k.frames.filterMap Frame.entered

def Kernel.cost (k : Kernel N T V) : ℕ :=
  (k.frames.map Frame.cost).sum +
    k.shared.cost k.entered (k.frames.any Frame.acknowledging)

/-! ### The shared state -/

section Effects

variable {s s' : Shared N T V} {es : List (Fin N)} {ack : Bool}

theorem Shared.waiting_congr (hq : s'.queue = s.queue) : s'.waiting es = s.waiting es := by
  unfold waiting
  rw [hq]

theorem Shared.cost_congr (hq : s'.queue = s.queue) (hm : s'.msip = s.msip) :
    s'.cost es ack = s.cost es ack := by
  unfold cost
  rw [size_congr hq, waiting_congr hq, hm]

theorem Shared.cost_le_pend (hq : s'.queue = s.queue) : s'.cost es ack ≤ s.cost es ack + 6 := by
  unfold cost
  rw [size_congr hq, waiting_congr hq]
  split <;> omega

theorem Shared.cost_taken (hq : s'.queue = s.queue) (hm : s.msip = true) :
    s'.cost es true + 6 = s.cost es false := by
  unfold cost
  rw [size_congr hq, waiting_congr hq, hm]
  simp

theorem Shared.cost_cleared (hq : s'.queue = s.queue) (hm : s'.msip = false) (ack' : Bool) :
    s'.cost es ack ≤ s.cost es ack' := by
  unfold cost
  rw [size_congr hq, waiting_congr hq, hm]
  simp

theorem Shared.cost_push {e : Fin N} {t : T}
    (hq : s'.queue = update s.queue e (s.queue e ++ [t])) (hm : s'.msip = s.msip) :
    s'.cost es ack ≤ s.cost es ack + 9 := by
  have hsub : s'.waiting es ⊆ insert e (s.waiting es) := fun e' he' => by
    obtain ⟨-, hne, hout⟩ := Finset.mem_filter.mp he'
    by_cases hee : e' = e
    · exact Finset.mem_insert.mpr (Or.inl hee)
    · rw [hq, update_of_ne hee] at hne
      exact Finset.mem_insert_of_mem (Finset.mem_filter.mpr ⟨Finset.mem_univ e', hne, hout⟩)
  have hcard := (Finset.card_le_card hsub).trans (Finset.card_insert_le e _)
  have hsize := size_push hq
  unfold cost
  rw [hm]
  omega

theorem Shared.cost_pop {e : Fin N} {t : T} {ts : List T} (hqe : s.queue e = t :: ts)
    (hq : s'.queue = update s.queue e ts) (hm : s'.msip = s.msip) :
    s'.cost es ack + 3 ≤ s.cost es ack := by
  have hsub : s'.waiting es ⊆ s.waiting es := fun e' he' => by
    obtain ⟨-, hne, hout⟩ := Finset.mem_filter.mp he'
    refine Finset.mem_filter.mpr ⟨Finset.mem_univ e', ?_, hout⟩
    by_cases hee : e' = e
    · rw [hee, hqe]
      exact List.cons_ne_nil t ts
    · rwa [hq, update_of_ne hee] at hne
  have hcard := Finset.card_le_card hsub
  have hsize := size_pop hqe hq
  unfold cost
  rw [hm]
  omega

theorem Shared.cost_enter {e : Fin N} (hqe : s.queue e ≠ []) (hout : e ∉ es)
    (hq : s'.queue = s.queue) (hm : s'.msip = s.msip) :
    s'.cost (e :: es) ack + 6 ≤ s.cost es ack := by
  have hsub : insert e (s'.waiting (e :: es)) ⊆ s.waiting es := fun e' he' => by
    rcases Finset.mem_insert.mp he' with rfl | he'
    · exact Finset.mem_filter.mpr ⟨Finset.mem_univ e', hqe, hout⟩
    · obtain ⟨-, hne, hout'⟩ := Finset.mem_filter.mp he'
      rw [hq] at hne
      exact Finset.mem_filter.mpr ⟨Finset.mem_univ e', hne,
        fun hmem => hout' (List.mem_cons_of_mem e hmem)⟩
  have hnot : e ∉ s'.waiting (e :: es) := fun he =>
    (Finset.mem_filter.mp he).2.2 List.mem_cons_self
  have hcard := Finset.card_le_card hsub
  rw [Finset.card_insert_of_notMem hnot] at hcard
  unfold cost
  rw [size_congr hq, hm]
  omega

theorem Shared.cost_leave {e : Fin N} (hqe : s.queue e = []) (hq : s'.queue = s.queue)
    (hm : s'.msip = s.msip) : s'.cost es ack = s.cost (e :: es) ack := by
  have hsame : s'.waiting es = s.waiting (e :: es) := by
    unfold waiting
    rw [hq]
    refine Finset.filter_congr fun e' _ => and_congr_right fun hne => ?_
    have hee : e' ≠ e := fun hee => hne (hee ▸ hqe)
    simp [hee]
  unfold cost
  rw [size_congr hq, hsame, hm]

variable [DecidableEq T]

/-- Each access of a call is paid for. -/
theorem callStep_cost {c : Call N T} {c' : Option (Call N T)} (h : callStep s c = some (s', c')) :
    c'.elim 0 Call.cost + s'.cost es ack < c.cost + s.cost es ack := by
  have hkeep : s'.queue = s.queue → s'.msip = s.msip → c'.elim 0 Call.cost < c.cost →
      c'.elim 0 Call.cost + s'.cost es ack < c.cost + s.cost es ack := fun hq hm hlt => by
    rw [Shared.cost_congr hq hm]
    omega
  have hpush : ∀ e t, s'.queue = update s.queue e (s.queue e ++ [t]) → s'.msip = s.msip →
      c'.elim 0 Call.cost + 10 ≤ c.cost →
      c'.elim 0 Call.cost + s'.cost es ack < c.cost + s.cost es ack := fun e t hq hm hle => by
    have hle' : s'.cost es ack ≤ s.cost es ack + 9 := Shared.cost_push hq hm
    omega
  have hpend : s'.queue = s.queue → c'.elim 0 Call.cost + 7 ≤ c.cost →
      c'.elim 0 Call.cost + s'.cost es ack < c.cost + s.cost es ack := fun hq hle => by
    have hle' : s'.cost es ack ≤ s.cost es ack + 6 := Shared.cost_le_pend hq
    omega
  cases callStep_next h with
  | wakePush => exact hpush _ _ rfl rfl (by simp [Call.cost])
  | spawnPush => exact hpush _ _ rfl rfl (by simp [Call.cost])
  | pendSend => exact hpend rfl (by simp [Call.cost])
  | spawnPend => exact hpend rfl (by simp [Call.cost])
  | _ => exact hkeep rfl rfl (by simp [Call.cost])

/-- The completion of a task is paid for where it ends. -/
theorem notifyLocked_cost {t : T} (h : s.notifyLocked t = some s') :
    s'.cost es ack ≤ s.cost es ack + 15 := by
  have hdespawned : (s.despawned t).cost es ack = s.cost es ack := Shared.cost_congr rfl rfl
  rcases Shared.notifyLocked_some h with ⟨-, rfl⟩ | ⟨w, -, hw⟩
  · omega
  · rcases Shared.wakeLocked_some hw with ⟨-, rfl⟩ | ⟨e, -, ⟨-, rfl⟩ | ⟨-, bm, -, rfl⟩⟩
    · omega
    · have hflag : ((s.despawned t).runEnqueue w).1.cost es ack = (s.despawned t).cost es ack :=
        Shared.cost_congr rfl rfl
      omega
    · have hpush : (((s.despawned t).runEnqueue w).1.pushed e w bm).cost es ack ≤
          (s.despawned t).cost es ack + 9 := Shared.cost_push rfl rfl
      have hpend : ((((s.despawned t).runEnqueue w).1.pushed e w bm).pend).cost es ack ≤
          (((s.despawned t).runEnqueue w).1.pushed e w bm).cost es ack + 6 :=
        Shared.cost_le_pend rfl
      omega

end Effects

/-! ### The activations -/

section Step

variable [DecidableEq T] {s s' : Shared N T V} {f : Frame N T V} {ev : Event T V}
  {fs gs : List (Frame N T V)}

omit [DecidableEq T] in
theorem Kernel.cost_cons (s : Shared N T V) (f : Frame N T V) (fs : List (Frame N T V)) :
    Kernel.cost ⟨s, f :: fs⟩ = f.cost + (fs.map Frame.cost).sum +
      s.cost (f.entered.toList ++ fs.filterMap Frame.entered)
        (f.acknowledging || fs.any Frame.acknowledging) := by
  have hent : (f :: fs).filterMap Frame.entered =
      f.entered.toList ++ fs.filterMap Frame.entered := by
    cases he : f.entered with
    | none => rw [List.filterMap_cons_none he, Option.toList_none, List.nil_append]
    | some e => rw [List.filterMap_cons_some he, Option.toList_some, List.singleton_append]
  unfold Kernel.cost Kernel.entered
  rw [hent, List.map_cons, List.sum_cons, List.any_cons]

omit [DecidableEq T] in
/-- A statement that enters and leaves no executor and is not about the
acknowledgement: the shared state and the worth of the frame are what counts. -/
theorem Kernel.cost_lt_of_frame {g : Frame N T V} {n : ℕ} (he : g.entered = f.entered)
    (ha : g.acknowledging = f.acknowledging)
    (hlt : ∀ es ack, g.cost + s'.cost es ack < f.cost + s.cost es ack + n) :
    Kernel.cost ⟨s', g :: fs⟩ < Kernel.cost ⟨s, f :: fs⟩ + n := by
  have h := hlt (f.entered.toList ++ fs.filterMap Frame.entered)
    (f.acknowledging || fs.any Frame.acknowledging)
  rw [cost_cons, cost_cons, he, ha]
  omega

theorem callStart_cost {r : Request T} {c : Call N T} (h : callStart s r = some (s', c))
    (es : List (Fin N)) (ack : Bool) : c.cost + s'.cost es ack ≤ s.cost es ack + 20 := by
  obtain ⟨⟨tk, rfl⟩, -⟩ := callStart_shared h
  have hsame : { s with tokens := tk }.cost es ack = s.cost es ack := Shared.cost_congr rfl rfl
  have hcall : c.cost ≤ 20 := by
    cases c with
    | _ => simp [Call.cost]
  omega

omit [DecidableEq T] in
theorem Kernel.cost_trapIsr :
    Kernel.cost ⟨{ s with mie := false }, .isr none :: f :: fs⟩ < Kernel.cost ⟨s, f :: fs⟩ + 21 := by
  have hsame : ∀ es ack, { s with mie := false }.cost es ack = s.cost es ack := fun es ack =>
    Shared.cost_congr rfl rfl
  have hisr : (Frame.isr none : Frame N T V).cost = 1 := rfl
  rw [cost_cons, hsame]
  unfold Kernel.cost Kernel.entered
  simp only [Frame.entered, Option.toList_none, List.nil_append, Frame.acknowledging,
    Bool.false_or, hisr]
  omega

omit [DecidableEq T] in
theorem Kernel.cost_trapSoft (hm : Kernel.Masked ⟨s, f :: fs⟩) (hmie : s.mie = true)
    (hmsip : s.msip = true) :
    Kernel.cost ⟨{ s with mie := false }, .hook none :: f :: fs⟩ < Kernel.cost ⟨s, f :: fs⟩ := by
  have hack : (f :: fs).any Frame.acknowledging = false := by
    refine List.any_eq_false.mpr fun g hg => ?_
    rw [Frame.not_acknowledging]
    · simp
    · rcases List.mem_cons.mp hg with rfl | hg
      · exact hm.head g fs rfl hmie
      · exact hm.tail f fs rfl g hg
  have htaken : { s with mie := false }.cost ((f :: fs).filterMap Frame.entered) true + 6 =
      s.cost ((f :: fs).filterMap Frame.entered) false := Shared.cost_taken rfl hmsip
  have hhook : (Frame.hook none : Frame N T V).cost = 5 := rfl
  rw [cost_cons]
  unfold Kernel.cost Kernel.entered
  simp only [Frame.entered, Option.toList_none, List.nil_append, Frame.acknowledging,
    Bool.true_or, hack, hhook] at htaken ⊢
  omega

omit [DecidableEq T] in
theorem Kernel.cost_clear (sys : Bool) :
    Kernel.cost ⟨{ s with msip := false }, (if sys then .tryPreempt else .mret) :: fs⟩ <
      Kernel.cost ⟨s, .clear sys :: fs⟩ := by
  have hcleared : { s with msip := false }.cost (fs.filterMap Frame.entered)
      (fs.any Frame.acknowledging) ≤ s.cost (fs.filterMap Frame.entered) true :=
    Shared.cost_cleared (by rfl) (by rfl) true
  rw [cost_cons, cost_cons]
  cases sys with
  | true =>
    simp only [↓reduceIte, Frame.entered, Option.toList_none, List.nil_append, Frame.acknowledging,
      Bool.false_or, Bool.true_or, Frame.cost]
    omega
  | false =>
    simp only [Bool.false_eq_true, ↓reduceIte, Frame.entered, Option.toList_none, List.nil_append,
      Frame.acknowledging, Bool.false_or, Bool.true_or, Frame.cost]
    omega

/-- `try_preempt` hands out a token for an executor that has a task and that
nobody has entered. -/
theorem Kernel.cost_preempt (hin : Kernel.InOrder ⟨s, .tryPreempt :: fs⟩) {p : ℕ}
    (hp : s.Preempts p) :
    Kernel.cost ⟨{ s with prioStack := ⟨p⟩ :: s.prioStack }, .enable ⟨p⟩ :: fs⟩ <
      Kernel.cost ⟨s, .tryPreempt :: fs⟩ := by
  have hlt : p < N := hin.bitmap.lt p (PriorityBitmap.highest_least hin.bitmap.wf hp.1).1
  have hqe : s.queue ⟨p, hlt⟩ ≠ [] :=
    hin.coherent.preempts hin.nested hin.bitmap (e := ⟨p, hlt⟩) hp
  have hout : ⟨p, hlt⟩ ∉ fs.filterMap Frame.entered := fun hmem => by
    obtain ⟨g, hg, he⟩ := List.mem_filterMap.mp hmem
    have hstack : (⟨p⟩ : Priority) ∈ s.prioStack := by
      rw [hin.nested.mirror]
      exact List.mem_filterMap.mpr ⟨g, List.mem_cons_of_mem _ hg, Frame.token_of_entered he⟩
    exact Nat.lt_irrefl p (hp.lt_stack hin.nested.sorted _ hstack)
  have henter : { s with prioStack := ⟨p⟩ :: s.prioStack }.cost
      (⟨p, hlt⟩ :: fs.filterMap Frame.entered) (fs.any Frame.acknowledging) + 6 ≤
      s.cost (fs.filterMap Frame.entered) (fs.any Frame.acknowledging) :=
    Shared.cost_enter hqe hout rfl rfl
  have hent : (Frame.enable ⟨p⟩ : Frame N T V).entered = some ⟨p, hlt⟩ := dif_pos hlt
  rw [cost_cons, cost_cons, hent]
  simp only [Option.toList_some, List.singleton_append, Frame.entered, Option.toList_none,
    List.nil_append, Frame.acknowledging, Bool.false_or, Frame.cost]
  omega

omit [DecidableEq T] in
theorem Kernel.cost_drained {e : Fin N} (hqe : s.queue e = []) (hq : s'.queue = s.queue)
    (hm : s'.msip = s.msip) :
    Kernel.cost ⟨s', .disable e :: fs⟩ < Kernel.cost ⟨s, .run e .top :: fs⟩ := by
  have hleave : s'.cost (fs.filterMap Frame.entered) (fs.any Frame.acknowledging) =
      s.cost (e :: fs.filterMap Frame.entered) (fs.any Frame.acknowledging) :=
    Shared.cost_leave hqe hq hm
  rw [cost_cons, cost_cons]
  simp only [Option.toList_some, List.singleton_append, Frame.entered, Option.toList_none,
    List.nil_append, Frame.acknowledging, Bool.false_or, Frame.cost]
  omega

omit [DecidableEq T] in
theorem Kernel.cost_return (he : f.entered = none) (ha : f.acknowledging = false)
    (hf : 0 < f.cost) (hq : s'.queue = s.queue) (hm : s'.msip = s.msip) :
    Kernel.cost ⟨s', fs⟩ < Kernel.cost ⟨s, f :: fs⟩ := by
  rw [cost_cons, he, ha]
  unfold Kernel.cost Kernel.entered
  rw [Shared.cost_congr hq hm]
  simp only [Option.toList_none, List.nil_append, Bool.false_or]
  omega

/-- **One step.** Work lowers what is still to be done, and an input raises it
by less than 21. -/
theorem Next.cost (hin : Kernel.InOrder ⟨s, f :: fs⟩) (hm : Kernel.Masked ⟨s, f :: fs⟩)
    (h : Next s f ev s' gs) :
    Kernel.cost ⟨s', gs ++ fs⟩ < Kernel.cost ⟨s, f :: fs⟩ + if ev.isInput then 21 else 0 := by
  -- a statement that leaves the queues and the pending interrupt
  have hquiet : ∀ {g : Frame N T V} {n : ℕ}, g.entered = f.entered →
      g.acknowledging = f.acknowledging → s'.queue = s.queue → s'.msip = s.msip →
      g.cost < f.cost + n → Kernel.cost ⟨s', [g] ++ fs⟩ < Kernel.cost ⟨s, f :: fs⟩ + n :=
    fun he ha hq hmsip hlt => Kernel.cost_lt_of_frame he ha fun es ack => by
      rw [Shared.cost_congr hq hmsip]
      omega
  -- `RunQueue::dequeue`
  have hpopped : ∀ {e : Fin N} {t : T} {ts : List T}, s.queue e = t :: ts →
      s'.queue = update s.queue e ts → s'.msip = s.msip → ∀ es ack,
      7 + s'.cost es ack < 5 + s.cost es ack + 0 := fun hqe hq hmsip es ack => by
    have hle : s'.cost es ack + 3 ≤ s.cost es ack := Shared.cost_pop hqe hq hmsip
    omega
  cases h with
  | @call _ c _ c' hu hc =>
    refine Kernel.cost_lt_of_frame (n := 0) (Frame.setCall_entered c')
      (Frame.setCall_acknowledging f c') fun es ack => ?_
    have hframe := Frame.cost_setCall hu c'
    have hcall : c'.elim 0 Call.cost + s'.cost es ack < c.cost + s.cost es ack := callStep_cost hc
    simp only [Option.elim_some] at hframe
    omega
  | @begin _ _ _ c hu hc =>
    refine Kernel.cost_lt_of_frame (n := 21) (Frame.setCall_entered _)
      (Frame.setCall_acknowledging f _) fun es ack => ?_
    have hframe := Frame.cost_setCall hu (some c)
    have hcall := callStart_cost hc es ack
    simp only [Option.elim_some, Option.elim_none] at hframe
    omega
  | setMie b => exact hquiet (n := 21) rfl rfl rfl rfl (by omega)
  | trapSoft hmie hmsip => exact Kernel.cost_trapSoft hm hmie hmsip
  | trapIsr => exact Kernel.cost_trapIsr
  | external =>
    refine Kernel.cost_lt_of_frame (n := 21) rfl rfl fun es ack => ?_
    have hle : { s with msip := true }.cost es ack ≤ s.cost es ack + 6 := Shared.cost_le_pend rfl
    omega
  | isrRet => exact Kernel.cost_return rfl rfl (by simp [Frame.cost]) rfl rfl
  | mret => exact Kernel.cost_return rfl rfl (by simp [Frame.cost]) rfl rfl
  | clear sys => exact Kernel.cost_clear sys
  | preempt hp => exact Kernel.cost_preempt hin hp
  | drained hq => exact Kernel.cost_drained hq rfl rfl
  | enable hlt =>
    exact hquiet (n := 0) (by simp [Frame.entered, hlt]) rfl rfl rfl (by simp [Frame.cost])
  | @dequeue e t ts hq =>
    exact Kernel.cost_lt_of_frame (n := 0) rfl rfl (hpopped hq rfl rfl)
  | notify hn =>
    refine Kernel.cost_lt_of_frame (n := 0) rfl rfl fun es ack => ?_
    have hle : s'.cost es ack ≤ s.cost es ack + 15 := notifyLocked_cost hn
    simp only [Frame.cost]
    omega
  | ready => exact hquiet (n := 21) rfl rfl rfl rfl (by simp [Frame.cost])
  | _ => exact hquiet (n := 0) rfl rfl rfl rfl (by simp [Frame.cost])

end Step

namespace Kernel

variable [DecidableEq T]

theorem pays : Transition.Pays step (Reachable (N := N) (T := T) (V := V)) Event.isInput cost 21 := by
  have hnext : ∀ (k : Kernel N T V) ev k', Reachable k → step k ev = some k' →
      k'.cost < k.cost + if ev.isInput then 21 else 0 := fun k ev k' hk hs => by
    have hin := InOrder.of_reachable hk
    have hm := masked hk
    obtain ⟨f, fs, s', gs, he, rfl, hn⟩ := step_next hs
    rw [he] at hin hm ⊢
    exact hn.cost hin hm
  refine ⟨fun k ev k' hk hs => hk.tail trivial hs, fun k ev k' hk hs hin => ?_,
    fun k ev k' hk hs hin => ?_⟩
  · simpa [hin] using hnext k ev k' hk hs
  · simpa [hin] using hnext k ev k' hk hs

/-- **An input makes at most 21 steps.** In a run from the start, the inputs
pay for all steps, with what is still to be done at the end. -/
theorem work_amortised {es : List (Event T V)} {k : Kernel N T V}
    (h : Transition.exec step init es = some k) :
    es.length + k.cost ≤ 21 * es.countP Event.isInput := by
  have hlen := pays.length_le (.refl _) h
  have hinit : (init : Kernel N T V).cost = 0 := by
    simp [cost, init, entered, Frame.cost, Frame.entered, Frame.acknowledging, Shared.cost,
      Shared.init, Shared.size, Shared.waiting]
  omega

/-- `main` has spawned a task and enabled interrupts, which makes three inputs,
and the task is about to be polled. -/
theorem work_amortised_spawned : ∃ k : Kernel 1 Unit Unit,
    Transition.exec step init (Event.spawnTask ⟨0⟩ () ++ .setMie true :: Event.machineSoft) = some k ∧
      k.frames = [.run 0 (.got ()), .base none] ∧ 19 + k.cost ≤ 21 * 3 := by
  obtain ⟨k, hk, hfr⟩ := Option.map_eq_some_iff.mp (show (Transition.exec step
    (init : Kernel 1 Unit Unit) (Event.spawnTask ⟨0⟩ () ++ .setMie true :: Event.machineSoft)).map
      Kernel.frames = some [.run 0 (.got ()), .base none] by decide +kernel)
  exact ⟨k, hk, hfr, work_amortised hk⟩

end Kernel
end RtAsync

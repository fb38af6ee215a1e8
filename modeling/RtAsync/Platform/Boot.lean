/-
# Booting from the device tree

`boot` and `try_derive_console` of `platform/src/driver.rs`, the logger of
`platform/src/logger.rs` and the drivers of `platform/src/drivers`. For each
node, `boot` configures its pins and enables its clocks with the controllers
that earlier probes have put in place, probes it with every driver that
matches, and takes the first serial port for the console if there is none. The
logger drops a line as long as there is no console. The lines are those that
the log level lets through.

A driver is the list of things that its probe of a node does to the registry
and the log, or a panic. The buses are the subject of `Bus`. `fdt_parser` is
the list of nodes that it yields and what `boot` and the built-in drivers ask
it, where it panics for some device trees: `Chosen::stdout` for an alias that
is not there, `Property::u32` for a property that is too short. `apply` and
`enable_for` are those of a board, and return.

Key definitions: `Effect`, `DtDriver`, `Platform.bootNode`, `Platform.boot`,
`defaultDrivers`, `history`, `ProbePanics`.
Key theorems: `DeviceRegistry.InOrder.register`, `Platform.Holds.bootNode`,
`Platform.boot_spec`, `default_boot`.
-/
import Mathlib.Algebra.GroupWithZero.Nat
import RtAsync.Platform.Bus

namespace RtAsync.Driver

open Function (update update_self update_of_ne)

variable {C U D : Type} {N : ℕ}

/-! ### The source -/

/-- The slots of the registry, `CONSOLE` apart. -/
inductive SlotKind
  | timer
  | ipi
  | reset
  | intc
  | pinctrl
  | clock
  deriving DecidableEq

/-- What a probe does beside its own registers: `SERIALS.register`, the `set` of
a slot, or a line for the log. -/
inductive Effect (D : Type)
  | serial (dev : D)
  | set (slot : SlotKind) (dev : D)
  | log (level args : String)

/-- `Driver`: `none` is the `expect` of a probe that does not find what it
needs. -/
structure DtDriver (C U D : Type) where
  compatible : List C
  probe : DtNode C U → Option (List (Effect D))

/-- What `boot` does that is seen outside of the registry. -/
inductive Action (C U D : Type)
  /-- `PinController::apply`. -/
  | apply (pc : D) (node : DtNode C U)
  /-- `ClockProvider::enable_for`. -/
  | enableFor (cc : D) (node : DtNode C U)
  /-- `Driver::probe`. -/
  | probe (drv : DtDriver C U D) (node : DtNode C U)
  /-- A line that the console writes. -/
  | write (console : D) (line : String)

/-- The registry, and what has been done so far. -/
structure Platform (C U D : Type) where
  console : Slot D
  slots : SlotKind → Slot D
  serials : DeviceRegistry D 4
  actions : List (Action C U D)

def DtDriver.matched [DecidableEq C] (node : DtNode C U) (drv : DtDriver C U D) : Bool :=
  node.compatibles.any fun nc => drv.compatible.any fun dc => dc = nc

/-- `writeln!(w, "[{}] {}", level, args)`. -/
def line (level args : String) : String := "[" ++ level ++ "] " ++ args ++ "\n"

namespace Platform

def init : Platform C U D := ⟨.new, fun _ => .new, .new, []⟩

def act (s : Platform C U D) (a : Action C U D) : Platform C U D :=
  { s with actions := s.actions ++ [a] }

/-- `Logger::log`: `try_console`, and nothing where there is none. -/
def log (s : Platform C U D) (level args : String) : Platform C U D :=
  match s.console.get with
  | some con => s.act (.write con (line level args))
  | none => s

/-- `none` is the panic of a full registry. -/
def effect (s : Platform C U D) : Effect D → Option (Platform C U D)
  | .serial dev => (s.serials.register dev).map fun (serials, _) => { s with serials }
  | .set slot dev => some { s with slots := update s.slots slot ((s.slots slot).set dev) }
  | .log level args => some (s.log level args)

/-- `drv.probe(&node)`. -/
def probe (s : Platform C U D) (node : DtNode C U) (drv : DtDriver C U D) :
    Option (Platform C U D) :=
  (drv.probe node).bind fun effects => effects.foldlM effect (s.act (.probe drv node))

/-- `try_derive_console`, where `stdout` is
`fdt.chosen().and_then(|c| c.stdout()).is_some()`, or its panic. -/
def tryDeriveConsole (stdout : Option Bool) (s : Platform C U D) : Option (Platform C U D) :=
  stdout.map fun hasChosen => match s.serials.iter.head? with
  | none =>
    if hasChosen then s.log "WARN" "chosen.stdout-path set but no serial driver matched" else s
  | some dev => { s with console := s.console.set dev }

/-- `pc.apply(&node)` and `cc.enable_for(&node)`, as far as there are `pc` and
`cc`. -/
def setUp (s : Platform C U D) (node : DtNode C U) : Platform C U D :=
  let s := (s.slots .pinctrl).get.elim s fun pc => s.act (.apply pc node)
  (s.slots .clock).get.elim s fun cc => s.act (.enableFor cc node)

variable [DecidableEq C]

/-- The loop over the drivers. -/
def probeAll (drivers : List (DtDriver C U D)) (node : DtNode C U) (s : Platform C U D) :
    Option (Platform C U D) :=
  drivers.foldlM (fun s drv => if drv.matched node then probe s node drv else some s) s

/-- The loop of `boot` over the nodes. -/
def bootNode (drivers : List (DtDriver C U D)) (stdout : Option Bool) (s : Platform C U D)
    (node : DtNode C U) : Option (Platform C U D) :=
  ((s.setUp node).probeAll drivers node).bind fun s =>
    if s.console.get.isNone then s.tryDeriveConsole stdout else some s

/-- `boot`, where `DRIVERS` is set to `drivers`, `stdout` is as in
`tryDeriveConsole`, and `all_nodes` yields `nodes`. -/
def boot (drivers : Option (List (DtDriver C U D))) (stdout : Option Bool)
    (nodes : List (DtNode C U)) : Option (Platform C U D) :=
  drivers.bind fun drivers =>
    (nodes.foldlM (bootNode drivers stdout) init).bind (tryDeriveConsole stdout)

end Platform

/-! ### The built-in drivers -/

/-- A probe that needs the `reg` of the node, and may panic for its address. -/
def DtDriver.ofReg (compatible : List C) (reg : U → Option ℕ)
    (effects : ℕ → Option (List (Effect D))) : DtDriver C U D :=
  ⟨compatible, fun node => (reg node.props).bind effects⟩

/-- `{:#x}`. -/
def hex (n : ℕ) : String := "0x" ++ String.ofList (Nat.toDigits 16 n)

/-- What the built-in drivers read beside the node: `mhartid`, and what
`read_timebase_freq` returns, if the parser does not panic. `usize` arithmetic
that overflows panics in a build that checks it. -/
structure BootHart where
  mhartid : ℕ
  timebase : Option (Option ℕ)
  overflowChecks : Bool

/-- The address of `ctx_regs` overflows, and the build checks it. -/
def BootHart.Overflows (b : BootHart) (base : ℕ) : Prop :=
  b.overflowChecks = true ∧ 2 ^ 64 ≤ base + 0x200000 + b.mhartid * 2 * 0x1000

instance (b : BootHart) (base : ℕ) : Decidable (b.Overflows base) :=
  inferInstanceAs (Decidable (_ ∧ _))

section DefaultDrivers

variable (reg : U → Option ℕ) (b : BootHart)

/-- `regs` asserts that the address is not 0. -/
def ns16550a : DtDriver String U String :=
  .ofReg ["ns16550a"] reg fun base => if base = 0 then none else some [.serial "ns16550a"]

def clintTimer : DtDriver String U String :=
  .ofReg ["riscv,clint0"] reg fun _ => b.timebase.map fun _ => [.set .timer "clint0"]

def clintMsip : DtDriver String U String :=
  .ofReg ["riscv,clint0-msip"] reg fun _ => some [.set .ipi "clint0-msip"]

def sifiveTest : DtDriver String U String :=
  .ofReg ["sifive,test1"] reg fun _ => some [.set .reset "test1"]

def plic : DtDriver String U String :=
  .ofReg ["riscv,plic0"] reg fun base =>
    if b.Overflows base then none
    else
      let context := b.mhartid * 2 % 2 ^ 64
      some [.log "INFO"
          s!"PLIC probed: base={hex base}, mhartid={b.mhartid}, context={context}",
        .set .intc "plic0"]

/-- `default_drivers`, with the instances named after their drivers, where the
log level is `Info`. `reg` is the first address of the `reg` of a node, if it
has one and the parser does not panic. -/
def defaultDrivers : List (DtDriver String U String) :=
  [ns16550a reg, clintTimer reg b, clintMsip reg, sifiveTest reg, plic reg b]

end DefaultDrivers

/-! ### The serial ports -/

/-- The devices that were registered, in the slots from the first one on. -/
structure DeviceRegistry.InOrder (r : DeviceRegistry D N) (devs : List D) : Prop where
  le : devs.length ≤ N
  next : r.next = devs.length % N
  slots : ∀ i : Fin N, (r.slots i).get = devs[(i : ℕ)]?

namespace DeviceRegistry.InOrder

variable {r : DeviceRegistry D N} {devs : List D}

theorem init : InOrder (.new : DeviceRegistry D N) [] :=
  ⟨Nat.zero_le N, (Nat.zero_mod N).symm, fun _ => rfl⟩

/-- The next device goes into the slot after them. -/
theorem register (h : r.InOrder devs) (dev : D) :
    (∃ r' idx, r.register dev = some (r', idx) ∧ r'.InOrder (devs ++ [dev])) ∨
      (r.register dev = none ∧ devs.length = N) := by
  rcases Nat.lt_or_eq_of_le h.le with hlt | heq
  · left
    have hempty : r.findEmpty = some ⟨devs.length, hlt⟩ := by
      obtain ⟨n, rfl⟩ : ∃ n, N = n + 1 := ⟨N - 1, by omega⟩
      have hidx : (r.next + ((0 : Fin (n + 1)) : ℕ)) % (n + 1) = devs.length := by
        rw [h.next, Nat.mod_eq_of_lt hlt]
        simpa using Nat.mod_eq_of_lt hlt
      have hnone : (r.slots ⟨devs.length, hlt⟩).get = none := by
        rw [h.slots]
        simp
      unfold findEmpty
      simp only [List.finRange_succ, List.findSome?_cons, hidx, hnone, Option.isNone_none, ↓reduceIte]
    refine ⟨_, _, by rw [DeviceRegistry.register, hempty]; rfl, ?_, ?_, fun i => ?_⟩
    · simpa using Nat.succ_le_of_lt hlt
    · simp
    · show (update r.slots ⟨devs.length, hlt⟩ _ i).get = _
      by_cases hi : i = ⟨devs.length, hlt⟩
      · subst hi
        simp
      · have hval : (i : ℕ) ≠ devs.length := fun hv => hi (Fin.ext hv)
        rw [update_of_ne hi, h.slots]
        rcases Nat.lt_or_gt_of_ne hval with hl | hg
        · rw [List.getElem?_append_left hl]
        · rw [List.getElem?_eq_none (Nat.le_of_lt hg),
            List.getElem?_eq_none (by simpa using Nat.succ_le_of_lt hg)]
  · refine Or.inr ⟨register_eq_none.mpr fun i hi => ?_, heq⟩
    rw [h.slots, List.getElem?_eq_none_iff] at hi
    have := i.isLt
    omega

/-- The first one is the first that `iter` yields. -/
theorem head_iter (h : r.InOrder devs) : r.iter.head? = devs.head? := by
  unfold iter
  rw [List.head?_filterMap]
  cases N with
  | zero =>
    have hle := h.le
    rw [Nat.le_zero, List.length_eq_zero_iff] at hle
    simp [hle]
  | succ n =>
    rw [List.finRange_succ, List.findSome?_cons, h.slots]
    cases devs with
    | cons dev devs => rfl
    | nil =>
      refine List.findSome?_eq_none_iff.mpr fun i _ => ?_
      rw [h.slots]
      rfl

end DeviceRegistry.InOrder

/-! ### What has been done after some nodes -/

namespace Effect

def serial? : Effect D → Option D
  | serial dev => some dev
  | _ => none

def set? (slot : SlotKind) : Effect D → Option D
  | set k dev => if k = slot then some dev else none
  | _ => none

/-- A line is written where there is a console. -/
def written (con : Option D) : Effect D → Option (Action C U D)
  | log level args => con.map fun con => .write con (line level args)
  | _ => none

end Effect

def serialsOf (es : List (Effect D)) : List D := es.filterMap Effect.serial?

/-- The device that a slot holds in the end. -/
def lastSet (slot : SlotKind) (es : List (Effect D)) : Option D :=
  (es.filterMap (Effect.set? slot)).getLast?

theorem serialsOf_concat (es : List (Effect D)) (e : Effect D) :
    serialsOf (es ++ [e]) = serialsOf es ++ e.serial?.toList := by
  unfold serialsOf
  rw [List.filterMap_append]
  cases he : e.serial? with
  | none => simp [he]
  | some dev => simp [he]

theorem length_serialsOf_le (es es' : List (Effect D)) :
    (serialsOf es).length ≤ (serialsOf (es ++ es')).length := by
  unfold serialsOf
  rw [List.filterMap_append, List.length_append]
  exact Nat.le_add_right _ _

theorem lastSet_concat (slot : SlotKind) (es : List (Effect D)) (e : Effect D) :
    lastSet slot (es ++ [e]) = (e.set? slot).or (lastSet slot es) := by
  unfold lastSet
  rw [List.filterMap_append]
  cases he : e.set? slot with
  | none => simp [he]
  | some dev => simp [he]

variable [DecidableEq C]

/-- The effects of the probes of a node, in order. -/
def nodeEffects (drivers : List (DtDriver C U D)) (node : DtNode C U) : List (Effect D) :=
  (drivers.filter fun drv => drv.matched node).flatMap fun drv => (drv.probe node).getD []

/-- The probes of a node, with what they write. -/
def nodeProbes (con : Option D) (drivers : List (DtDriver C U D)) (node : DtNode C U) :
    List (Action C U D) :=
  (drivers.filter fun drv => drv.matched node).flatMap fun drv =>
    .probe drv node :: ((drv.probe node).getD []).filterMap (Effect.written con)

/-- What is done for a node, where the probes of the nodes before had the
effects `es`: its pins and clocks come first, with the controllers that are
there, and lines are written if a serial port was registered. -/
def nodeActions (drivers : List (DtDriver C U D)) (es : List (Effect D)) (node : DtNode C U) :
    List (Action C U D) :=
  ((lastSet .pinctrl es).map fun pc => .apply pc node).toList ++
    ((lastSet .clock es).map fun cc => .enableFor cc node).toList ++
    nodeProbes (serialsOf es).head? drivers node

/-- What is done for the nodes, one after the other. -/
def history (drivers : List (DtDriver C U D)) :
    List (Effect D) → List (DtNode C U) → List (Action C U D)
  | _, [] => []
  | es, node :: nodes =>
    nodeActions drivers es node ++ history drivers (es ++ nodeEffects drivers node) nodes

omit [DecidableEq C]

/-- A run of something that may panic: it returns something `good`, or it
panics and `bad` holds. -/
def Outcome {σ : Type} (o : Option σ) (good : σ → Prop) (bad : Prop) : Prop :=
  (∃ s, o = some s ∧ good s) ∨ (o = none ∧ bad)

theorem Outcome.bind {σ τ : Type} {o : Option σ} {good : σ → Prop} {bad bad' : Prop}
    {f : σ → Option τ} {good' : τ → Prop} (h : Outcome o good bad)
    (hf : ∀ s, good s → Outcome (f s) good' bad') (hbad : bad → bad') :
    Outcome (o.bind f) good' bad' := by
  rcases h with ⟨s, rfl, hs⟩ | ⟨rfl, hb⟩
  · exact hf s hs
  · exact Or.inr ⟨rfl, hbad hb⟩

theorem Outcome.imp {σ : Type} {o : Option σ} {good good' : σ → Prop} {bad bad' : Prop}
    (h : Outcome o good bad) (hgood : ∀ s, good s → good' s) (hbad : bad → bad') :
    Outcome o good' bad' := by
  rcases h with ⟨s, ho, hs⟩ | ⟨ho, hb⟩
  · exact Or.inl ⟨s, ho, hgood s hs⟩
  · exact Or.inr ⟨ho, hbad hb⟩

namespace Platform

/-- After the effects `es`, where the console is `con`. -/
structure Holds (s : Platform C U D) (es : List (Effect D)) (con : Option D)
    (actions : List (Action C U D)) : Prop where
  serials : s.serials.InOrder (serialsOf es)
  slots : ∀ k, (s.slots k).get = lastSet k es
  console : s.console.get = con
  actions : s.actions = actions

variable {s : Platform C U D} {es : List (Effect D)} {con : Option D}
  {actions : List (Action C U D)}

theorem Holds.act (h : s.Holds es con actions) (a : Action C U D) :
    (s.act a).Holds es con (actions ++ [a]) :=
  ⟨h.serials, h.slots, h.console, congrArg (· ++ [a]) h.actions⟩

theorem Holds.log (h : s.Holds es con actions) (level args : String) :
    (s.log level args).Holds es con
      (actions ++ ((Effect.log level args : Effect D).written con).toList) := by
  unfold Platform.log
  rw [h.console]
  cases con with
  | none => simpa [Effect.written] using h
  | some con => exact h.act (.write con (line level args))

theorem Holds.effect (h : s.Holds es con actions) (e : Effect D) :
    Outcome (s.effect e) (fun s' => s'.Holds (es ++ [e]) con (actions ++ (e.written con).toList))
      (4 < (serialsOf (es ++ [e])).length) := by
  have hslots : (∀ k, e.set? k = none) → ∀ k, (s.slots k).get = lastSet k (es ++ [e]) :=
    fun hno k => by rw [lastSet_concat, hno k, Option.none_or, h.slots k]
  cases e with
  | serial dev =>
    have hserials : serialsOf (es ++ [.serial dev]) = serialsOf es ++ [dev] := serialsOf_concat ..
    rw [hserials]
    rcases h.serials.register dev with ⟨r, idx, hr, hin⟩ | ⟨hr, hlen⟩
    · refine Or.inl ⟨{ s with serials := r }, by rw [Platform.effect, hr]; rfl, ?_,
        hslots fun k => rfl, h.console, ?_⟩
      · rw [hserials]
        exact hin
      · simpa [Effect.written] using h.actions
    · refine Or.inr ⟨by rw [Platform.effect, hr]; rfl, ?_⟩
      rw [List.length_append, hlen]
      exact Nat.lt_succ_self 4
  | set slot dev =>
    refine Or.inl ⟨_, rfl, ?_, fun k => ?_, h.console, ?_⟩
    · rw [serialsOf_concat]
      simpa [Effect.serial?] using h.serials
    · show (update s.slots slot ((s.slots slot).set dev) k).get = _
      rw [lastSet_concat]
      by_cases hk : k = slot
      · subst hk
        simp [Effect.set?]
      · rw [update_of_ne hk, h.slots k]
        simp [Effect.set?, Ne.symm hk]
    · simpa [Effect.written] using h.actions
  | log level args =>
    have hlog := h.log level args
    refine Or.inl ⟨_, rfl, ?_, fun k => ?_, hlog.console, hlog.actions⟩
    · rw [serialsOf_concat]
      simpa [Effect.serial?] using hlog.serials
    · rw [lastSet_concat]
      exact hlog.slots k

/-- The effects of one probe. -/
theorem Holds.effects : ∀ (es' : List (Effect D)) {s : Platform C U D} {es : List (Effect D)}
    {actions : List (Action C U D)}, s.Holds es con actions →
    Outcome (es'.foldlM Platform.effect s)
      (fun s' => s'.Holds (es ++ es') con (actions ++ es'.filterMap (Effect.written con)))
      (4 < (serialsOf (es ++ es')).length)
  | [], s, es, actions, h => Or.inl ⟨s, rfl, by simpa using h⟩
  | e :: es', s, es, actions, h => by
    have hlater : es ++ e :: es' = es ++ [e] ++ es' := by simp
    have hwritten : (e :: es').filterMap (Effect.written (C := C) (U := U) con) =
        (e.written con).toList ++ es'.filterMap (Effect.written con) := by
      cases he : e.written (C := C) (U := U) con with
      | none => simp [he]
      | some a => simp [he]
    rw [List.foldlM_cons, hlater, hwritten, ← List.append_assoc]
    refine (h.effect e).bind (fun s' hs' => Holds.effects es' hs') fun hlt => ?_
    exact Nat.lt_of_lt_of_le hlt (length_serialsOf_le _ _)

/-- One probe, which may panic itself. -/
theorem Holds.probe (h : s.Holds es con actions) (node : DtNode C U) (drv : DtDriver C U D) :
    Outcome (s.probe node drv)
      (fun s' => (drv.probe node).isSome ∧ s'.Holds (es ++ (drv.probe node).getD []) con
        (actions ++ .probe drv node :: ((drv.probe node).getD []).filterMap (Effect.written con)))
      (drv.probe node = none ∨ 4 < (serialsOf (es ++ (drv.probe node).getD [])).length) := by
  unfold Platform.probe
  cases hp : drv.probe node with
  | none => exact Or.inr ⟨rfl, Or.inl rfl⟩
  | some effects =>
    have hact := h.act (.probe drv node)
    rw [Option.bind_some, Option.getD_some]
    rcases hact.effects effects with ⟨s', hs', hgood⟩ | ⟨hnone, hlt⟩
    · refine Or.inl ⟨s', hs', rfl, ?_⟩
      simpa using hgood
    · exact Or.inr ⟨hnone, Or.inr hlt⟩

/-- The console is the first serial port, if there is one. -/
theorem Holds.tryDeriveConsole (h : s.Holds es con actions) (stdout : Option Bool)
    (hcon : con = none ∨ con = (serialsOf es).head?) :
    Outcome (s.tryDeriveConsole stdout)
      (fun s' => stdout ≠ none ∧ s'.Holds es (serialsOf es).head? actions) (stdout = none) := by
  cases stdout with
  | none => exact Or.inr ⟨rfl, rfl⟩
  | some hasChosen =>
    refine Or.inl ⟨_, rfl, Option.some_ne_none _, ?_⟩
    rw [h.serials.head_iter]
    cases hhead : (serialsOf es).head? with
    | none =>
      -- a warning that nobody sees
      have hnone : con = none := hcon.elim id fun he => he.trans hhead
      subst hnone
      cases hasChosen with
      | false => exact h
      | true => simpa [Effect.written] using h.log "WARN" _
    | some dev => exact ⟨h.serials, h.slots, rfl, h.actions⟩

theorem Holds.setUp (h : s.Holds es con actions) (node : DtNode C U) :
    (s.setUp node).Holds es con (actions ++
      (((lastSet .pinctrl es).map fun pc => .apply pc node).toList ++
        ((lastSet .clock es).map fun cc => .enableFor cc node).toList)) := by
  have hpin : ((s.slots .pinctrl).get.elim s fun pc => s.act (.apply pc node)).Holds es con
      (actions ++ ((lastSet .pinctrl es).map fun pc => .apply pc node).toList) := by
    rw [h.slots]
    cases lastSet .pinctrl es with
    | none => simpa using h
    | some pc => exact h.act _
  unfold Platform.setUp
  rw [← List.append_assoc]
  simp only
  rw [hpin.slots .clock]
  cases lastSet .clock es with
  | none => simpa using hpin
  | some cc => exact hpin.act _

variable [DecidableEq C]

theorem Holds.probeAll (node : DtNode C U) : ∀ (drivers : List (DtDriver C U D))
    {s : Platform C U D} {es : List (Effect D)} {actions : List (Action C U D)},
    s.Holds es con actions → Outcome (s.probeAll drivers node)
      (fun s' => (∀ drv ∈ drivers, drv.matched node → (drv.probe node).isSome) ∧
        s'.Holds (es ++ nodeEffects drivers node) con (actions ++ nodeProbes con drivers node))
      ((∃ drv ∈ drivers, drv.matched node ∧ drv.probe node = none) ∨
        4 < (serialsOf (es ++ nodeEffects drivers node)).length)
  | [], s, es, actions, h =>
    Or.inl ⟨s, rfl, List.forall_mem_nil _, by simpa [nodeEffects, nodeProbes] using h⟩
  | drv :: drivers, s, es, actions, h => by
    have hrest : Platform.probeAll (drv :: drivers) node s =
        (if drv.matched node then s.probe node drv else some s).bind fun s' =>
          s'.probeAll drivers node := rfl
    rw [hrest]
    by_cases hm : drv.matched node = true
    · have heffects : nodeEffects (drv :: drivers) node =
          (drv.probe node).getD [] ++ nodeEffects drivers node := by
        simp [nodeEffects, hm]
      have hprobes : nodeProbes con (drv :: drivers) node =
          .probe drv node :: ((drv.probe node).getD []).filterMap (Effect.written con) ++
            nodeProbes con drivers node := by
        simp [nodeProbes, hm]
      rw [if_pos hm, heffects, hprobes, ← List.append_assoc, ← List.append_assoc]
      refine (h.probe node drv).bind (fun s' ⟨hsome, hs'⟩ => ?_) fun hbad => ?_
      · refine (Holds.probeAll node drivers hs').imp (fun s'' ⟨hall, hs''⟩ => ⟨?_, hs''⟩) fun hbad => ?_
        · exact List.forall_mem_cons.mpr ⟨fun _ => hsome, hall⟩
        · exact hbad.imp_left fun ⟨d, hd, hmd⟩ => ⟨d, List.mem_cons_of_mem drv hd, hmd⟩
      · rcases hbad with hnone | hlt
        · exact Or.inl ⟨drv, List.mem_cons_self, hm, hnone⟩
        · exact Or.inr (Nat.lt_of_lt_of_le hlt (length_serialsOf_le _ _))
    · have heffects : nodeEffects (drv :: drivers) node = nodeEffects drivers node := by
        simp [nodeEffects, hm]
      have hprobes : nodeProbes con (drv :: drivers) node = nodeProbes con drivers node := by
        simp [nodeProbes, hm]
      rw [if_neg hm, heffects, hprobes]
      refine (Holds.probeAll node drivers h).imp (fun s' ⟨hall, hs'⟩ => ⟨?_, hs'⟩) fun hbad => ?_
      · exact List.forall_mem_cons.mpr ⟨fun hmd => absurd hmd hm, hall⟩
      · exact hbad.imp_left fun ⟨d, hd, hmd⟩ => ⟨d, List.mem_cons_of_mem drv hd, hmd⟩

/-- A node is done: the console is the first serial port again. -/
theorem Holds.bootNode (drivers : List (DtDriver C U D)) (stdout : Option Bool) (node : DtNode C U)
    (h : s.Holds es (serialsOf es).head? actions) :
    Outcome (s.bootNode drivers stdout node)
      (fun s' => (∀ drv ∈ drivers, drv.matched node → (drv.probe node).isSome) ∧
        s'.Holds (es ++ nodeEffects drivers node) (serialsOf (es ++ nodeEffects drivers node)).head?
          (actions ++ nodeActions drivers es node))
      (stdout = none ∨ (∃ drv ∈ drivers, drv.matched node ∧ drv.probe node = none) ∨
        4 < (serialsOf (es ++ nodeEffects drivers node)).length) := by
  have hall := (h.setUp node).probeAll node drivers
  rw [List.append_assoc] at hall
  refine hall.bind (fun s' ⟨hsome, hgood⟩ => ?_) Or.inr
  split
  · rename_i hno
    rw [hgood.console, Option.isNone_iff_eq_none] at hno
    exact (hgood.tryDeriveConsole stdout (Or.inl hno)).imp (fun s'' ⟨_, hs''⟩ => ⟨hsome, hs''⟩) Or.inl
  · rename_i hcon
    rw [hgood.console, Option.isNone_iff_eq_none, List.head?_eq_none_iff] at hcon
    have hhead : (serialsOf (es ++ nodeEffects drivers node)).head? = (serialsOf es).head? := by
      unfold serialsOf at hcon ⊢
      rw [List.filterMap_append, List.head?_append_of_ne_nil _ hcon]
    rw [hhead]
    exact Or.inl ⟨s', rfl, hsome, hgood⟩

theorem Holds.bootNodes (drivers : List (DtDriver C U D)) (stdout : Option Bool) :
    ∀ (nodes : List (DtNode C U)) {s : Platform C U D} {es : List (Effect D)}
      {actions : List (Action C U D)}, s.Holds es (serialsOf es).head? actions →
    Outcome (nodes.foldlM (Platform.bootNode drivers stdout) s)
      (fun s' => (∀ node ∈ nodes, ∀ drv ∈ drivers, drv.matched node → (drv.probe node).isSome) ∧
        s'.Holds (es ++ nodes.flatMap (nodeEffects drivers))
          (serialsOf (es ++ nodes.flatMap (nodeEffects drivers))).head?
          (actions ++ history drivers es nodes))
      (stdout = none ∨ (∃ node ∈ nodes, ∃ drv ∈ drivers, drv.matched node ∧ drv.probe node = none) ∨
        4 < (serialsOf (es ++ nodes.flatMap (nodeEffects drivers))).length)
  | [], s, es, actions, h => Or.inl ⟨s, rfl, List.forall_mem_nil _, by simpa [history] using h⟩
  | node :: nodes, s, es, actions, h => by
    rw [List.foldlM_cons, List.flatMap_cons, history, ← List.append_assoc, ← List.append_assoc]
    refine (h.bootNode drivers stdout node).bind (fun s' ⟨hsome, hs'⟩ => ?_) fun hbad => ?_
    · refine (Holds.bootNodes drivers stdout nodes hs').imp (fun s'' ⟨hall, hs''⟩ => ⟨?_, hs''⟩)
        fun hbad => ?_
      · exact List.forall_mem_cons.mpr ⟨hsome, hall⟩
      · exact hbad.imp_right (Or.imp_left fun ⟨n, hn, hd⟩ => ⟨n, List.mem_cons_of_mem node hn, hd⟩)
    · rcases hbad with hnone | hd | hlt
      · exact Or.inl hnone
      · exact Or.inr (Or.inl ⟨node, List.mem_cons_self, hd⟩)
      · exact Or.inr (Or.inr (Nat.lt_of_lt_of_le hlt (length_serialsOf_le _ _)))

theorem boot_outcome (drivers : List (DtDriver C U D)) (stdout : Option Bool)
    (nodes : List (DtNode C U)) :
    Outcome (boot (some drivers) stdout nodes)
      (fun s => (stdout ≠ none ∧
          ∀ node ∈ nodes, ∀ drv ∈ drivers, drv.matched node → (drv.probe node).isSome) ∧
        s.Holds (nodes.flatMap (nodeEffects drivers))
          (serialsOf (nodes.flatMap (nodeEffects drivers))).head? (history drivers [] nodes))
      (stdout = none ∨ (∃ node ∈ nodes, ∃ drv ∈ drivers, drv.matched node ∧ drv.probe node = none) ∨
        4 < (serialsOf (nodes.flatMap (nodeEffects drivers))).length) := by
  have hinit : (init : Platform C U D).Holds [] (serialsOf []).head? [] :=
    ⟨.init, fun _ => rfl, rfl, rfl⟩
  refine (hinit.bootNodes drivers stdout nodes).bind (fun s ⟨hsome, hgood⟩ => ?_) id
  exact (hgood.tryDeriveConsole stdout (Or.inr rfl)).imp
    (fun s' ⟨hstdout, hs'⟩ => ⟨⟨hstdout, hsome⟩, hs'⟩) Or.inl

end Platform

/-! ### Booting with the built-in drivers -/

section Builtin

variable {reg : U → Option ℕ} {b : BootHart}

/-- The `compatible` of the driver that sets a slot, and its instance. -/
def slotDriver : SlotKind → Option (String × String)
  | .timer => some ("riscv,clint0", "clint0")
  | .ipi => some ("riscv,clint0-msip", "clint0-msip")
  | .reset => some ("sifive,test1", "test1")
  | .intc => some ("riscv,plic0", "plic0")
  | .pinctrl => none
  | .clock => none

/-- A built-in driver matches the node, and panics in its probe. -/
inductive ProbePanics (reg : U → Option ℕ) (b : BootHart) (node : DtNode String U) : Prop
  | noReg {drv : DtDriver String U String} : drv ∈ defaultDrivers reg b → drv.matched node = true →
      reg node.props = none → ProbePanics reg b node
  | address : "ns16550a" ∈ node.compatibles → reg node.props = some 0 → ProbePanics reg b node
  | timebase : "riscv,clint0" ∈ node.compatibles → b.timebase = none → ProbePanics reg b node
  | overflow {base : ℕ} : "riscv,plic0" ∈ node.compatibles → reg node.props = some base →
      b.Overflows base → ProbePanics reg b node

theorem nodeEffects_nil [DecidableEq C] (node : DtNode C U) :
    nodeEffects ([] : List (DtDriver C U D)) node = [] := rfl

theorem nodeEffects_cons [DecidableEq C] (drv : DtDriver C U D) (drivers : List (DtDriver C U D))
    (node : DtNode C U) : nodeEffects (drv :: drivers) node =
      (if drv.matched node then (drv.probe node).getD [] else []) ++ nodeEffects drivers node := by
  by_cases hm : drv.matched node = true
  · simp [nodeEffects, hm]
  · simp [nodeEffects, hm]

theorem matched_ofReg {c : String} {effects : ℕ → Option (List (Effect String))}
    (node : DtNode String U) :
    (DtDriver.ofReg [c] reg effects).matched node = decide (c ∈ node.compatibles) := by
  rw [Bool.eq_iff_iff]
  simp [DtDriver.matched, DtDriver.ofReg]

theorem probe_ofReg {cs : List String} {effects : ℕ → Option (List (Effect String))}
    (node : DtNode String U) :
    (DtDriver.ofReg cs reg effects).probe node = (reg node.props).bind effects := rfl

/-- The probes that panic. -/
theorem probePanics_iff (node : DtNode String U) :
    (∃ drv ∈ defaultDrivers reg b, drv.matched node ∧ drv.probe node = none) ↔
      ProbePanics reg b node := by
  constructor
  · rintro ⟨drv, hdrv, hm, hnone⟩
    cases hreg : reg node.props with
    | none => exact .noReg hdrv hm hreg
    | some base =>
      simp only [defaultDrivers, List.mem_cons, List.not_mem_nil, or_false] at hdrv
      rcases hdrv with rfl | rfl | rfl | rfl | rfl
      · rw [ns16550a, matched_ofReg, decide_eq_true_eq] at hm
        rw [ns16550a, probe_ofReg, hreg, Option.bind_some] at hnone
        split at hnone
        · rename_i h0
          exact .address hm (h0 ▸ hreg)
        · cases hnone
      · rw [clintTimer, matched_ofReg, decide_eq_true_eq] at hm
        rw [clintTimer, probe_ofReg, hreg, Option.bind_some, Option.map_eq_none_iff] at hnone
        exact .timebase hm hnone
      · rw [clintMsip, probe_ofReg, hreg] at hnone
        cases hnone
      · rw [sifiveTest, probe_ofReg, hreg] at hnone
        cases hnone
      · rw [plic, matched_ofReg, decide_eq_true_eq] at hm
        rw [plic, probe_ofReg, hreg, Option.bind_some] at hnone
        split at hnone
        · rename_i hover
          exact .overflow hm hreg hover
        · cases hnone
  · intro h
    cases h with
    | noReg hdrv hm hreg =>
      refine ⟨_, hdrv, hm, ?_⟩
      simp only [defaultDrivers, List.mem_cons, List.not_mem_nil, or_false] at hdrv
      rcases hdrv with rfl | rfl | rfl | rfl | rfl
      · rw [ns16550a, probe_ofReg, hreg, Option.bind_none]
      · rw [clintTimer, probe_ofReg, hreg, Option.bind_none]
      · rw [clintMsip, probe_ofReg, hreg, Option.bind_none]
      · rw [sifiveTest, probe_ofReg, hreg, Option.bind_none]
      · rw [plic, probe_ofReg, hreg, Option.bind_none]
    | address hc hreg =>
      refine ⟨ns16550a reg, by simp [defaultDrivers], ?_, ?_⟩
      · rw [ns16550a, matched_ofReg]
        exact decide_eq_true hc
      · rw [ns16550a, probe_ofReg, hreg, Option.bind_some, if_pos rfl]
    | timebase hc hnone =>
      refine ⟨clintTimer reg b, by simp [defaultDrivers], ?_, ?_⟩
      · rw [clintTimer, matched_ofReg]
        exact decide_eq_true hc
      · rw [clintTimer, probe_ofReg, hnone]
        cases reg node.props <;> rfl
    | overflow hc hreg hover =>
      refine ⟨plic reg b, by simp [defaultDrivers], ?_, ?_⟩
      · rw [plic, matched_ofReg]
        exact decide_eq_true hc
      · rw [plic, probe_ofReg, hreg, Option.bind_some, if_pos hover]

/-- No probe of the node panics. -/
def Probed (reg : U → Option ℕ) (b : BootHart) (node : DtNode String U) : Prop :=
  ∀ drv ∈ defaultDrivers reg b, drv.matched node → (drv.probe node).isSome

theorem Probed.not_panics {node : DtNode String U} (h : Probed reg b node) :
    ¬ProbePanics reg b node := by
  rw [← probePanics_iff]
  rintro ⟨drv, hdrv, hm, hnone⟩
  have hsome := h drv hdrv hm
  rw [hnone] at hsome
  cases hsome

/-- What a probe that has the effects `es`, if it does not panic, adds to a list
that collects some of them. -/
theorem filterMap_ofReg {α : Type} (g : Effect String → Option α) {c : String}
    {effects : ℕ → Option (List (Effect String))} {l : List α}
    (hl : ∀ base es, effects base = some es → es.filterMap g = l) (node : DtNode String U) :
    (if (DtDriver.ofReg [c] reg effects).matched node then
        ((DtDriver.ofReg [c] reg effects).probe node).getD [] else []).filterMap g =
      if c ∈ node.compatibles ∧ ((DtDriver.ofReg [c] reg effects).probe node).isSome then l
      else [] := by
  by_cases hm : c ∈ node.compatibles
  · rw [matched_ofReg, if_pos (decide_eq_true hm)]
    cases hp : (DtDriver.ofReg [c] reg effects).probe node with
    | none => simp
    | some es =>
      obtain ⟨base, -, hes⟩ := Option.bind_eq_some_iff.mp hp
      rw [if_pos ⟨hm, rfl⟩]
      exact hl base es hes
  · rw [matched_ofReg, if_neg (by simpa using hm), if_neg fun h => hm h.1]
    rfl

/-- What a node adds to a list that collects some of its effects: for each
driver its share, where it matches and does not panic. -/
theorem filterMap_node {α : Type} (g : Effect String → Option α)
    (hlog : ∀ level args, g (.log level args) = none) (node : DtNode String U) :
    (nodeEffects (defaultDrivers reg b) node).filterMap g =
      (if "ns16550a" ∈ node.compatibles ∧ ((ns16550a reg).probe node).isSome then
        (g (.serial "ns16550a")).toList else []) ++
      (if "riscv,clint0" ∈ node.compatibles ∧ ((clintTimer reg b).probe node).isSome then
        (g (.set .timer "clint0")).toList else []) ++
      (if "riscv,clint0-msip" ∈ node.compatibles ∧ ((clintMsip reg).probe node).isSome then
        (g (.set .ipi "clint0-msip")).toList else []) ++
      (if "sifive,test1" ∈ node.compatibles ∧ ((sifiveTest reg).probe node).isSome then
        (g (.set .reset "test1")).toList else []) ++
      (if "riscv,plic0" ∈ node.compatibles ∧ ((plic reg b).probe node).isSome then
        (g (.set .intc "plic0")).toList else []) := by
  have hone : ∀ e, [e].filterMap g = (g e).toList := fun e => by
    cases he : g e <;> simp [he]
  rw [defaultDrivers, nodeEffects_cons, nodeEffects_cons, nodeEffects_cons, nodeEffects_cons,
    nodeEffects_cons, nodeEffects_nil, List.append_nil, List.filterMap_append,
    List.filterMap_append, List.filterMap_append, List.filterMap_append, ns16550a, clintTimer,
    clintMsip, sifiveTest, plic]
  rw [filterMap_ofReg g (l := (g (.serial "ns16550a")).toList),
    filterMap_ofReg g (l := (g (.set .timer "clint0")).toList),
    filterMap_ofReg g (l := (g (.set .ipi "clint0-msip")).toList),
    filterMap_ofReg g (l := (g (.set .reset "test1")).toList),
    filterMap_ofReg g (l := (g (.set .intc "plic0")).toList)]
  · simp only [List.append_assoc]
  · intro base es h
    obtain ⟨-, h⟩ := Option.ite_none_left_eq_some.mp h
    rw [← Option.some.inj h, List.filterMap_cons_none (hlog _ _)]
    exact hone _
  · exact fun base es h => Option.some.inj h ▸ hone _
  · exact fun base es h => Option.some.inj h ▸ hone _
  · intro base es h
    obtain ⟨f, -, rfl⟩ := Option.map_eq_some_iff.mp h
    exact hone _
  · intro base es h
    obtain ⟨-, h⟩ := Option.ite_none_left_eq_some.mp h
    exact Option.some.inj h ▸ hone _

/-- The probe of a driver that a node names returns. -/
theorem Probed.probe {node : DtNode String U} (h : Probed reg b node)
    {drv : DtDriver String U String} {c : String} (hdrv : drv ∈ defaultDrivers reg b)
    (hm : drv.matched node = decide (c ∈ node.compatibles)) :
    (c ∈ node.compatibles ∧ (drv.probe node).isSome) ↔ c ∈ node.compatibles :=
  and_iff_left_of_imp fun hc => h drv hdrv (by rw [hm]; exact decide_eq_true hc)

/-- The serial port of a node. -/
theorem serialsOf_node (node : DtNode String U) :
    serialsOf (nodeEffects (defaultDrivers reg b) node) =
      if "ns16550a" ∈ node.compatibles ∧ ((ns16550a reg).probe node).isSome then ["ns16550a"]
      else [] := by
  rw [serialsOf, filterMap_node _ fun _ _ => rfl]
  simp [Effect.serial?]

/-- What a node sets a slot to. -/
theorem sets_node (k : SlotKind) {node : DtNode String U} (h : Probed reg b node) :
    (nodeEffects (defaultDrivers reg b) node).filterMap (Effect.set? k) =
      (slotDriver k).elim [] fun x => if x.1 ∈ node.compatibles then [x.2] else [] := by
  have htimer := h.probe (show clintTimer reg b ∈ defaultDrivers reg b by simp [defaultDrivers])
    (matched_ofReg node)
  have hipi := h.probe (show clintMsip reg ∈ defaultDrivers reg b by simp [defaultDrivers])
    (matched_ofReg node)
  have hreset := h.probe (show sifiveTest reg ∈ defaultDrivers reg b by simp [defaultDrivers])
    (matched_ofReg node)
  have hintc := h.probe (show plic reg b ∈ defaultDrivers reg b by simp [defaultDrivers])
    (matched_ofReg node)
  rw [filterMap_node _ fun _ _ => rfl]
  cases k with
  | timer => simpa [Effect.set?, slotDriver] using if_congr htimer rfl rfl
  | ipi => simpa [Effect.set?, slotDriver] using if_congr hipi rfl rfl
  | reset => simpa [Effect.set?, slotDriver] using if_congr hreset rfl rfl
  | intc => simpa [Effect.set?, slotDriver] using if_congr hintc rfl rfl
  | pinctrl => simp [Effect.set?, slotDriver]
  | clock => simp [Effect.set?, slotDriver]

/-- One device for each node that has it. -/
theorem flatMap_ite (p : DtNode String U → Prop) [DecidablePred p] (dev : String) :
    ∀ nodes : List (DtNode String U), (nodes.flatMap fun node => if p node then [dev] else []) =
      .replicate (nodes.countP p) dev
  | [] => rfl
  | node :: nodes => by
    rw [List.flatMap_cons, flatMap_ite p dev nodes]
    by_cases hp : p node
    · simp [hp, List.replicate_succ]
    · simp [hp]

theorem ite_countP (nodes : List (DtNode String U)) (c dev : String) :
    (if (nodes.countP fun node => c ∈ node.compatibles) = 0 then none else some dev) =
      if ∃ node ∈ nodes, c ∈ node.compatibles then some dev else none := by
  by_cases hin : ∃ node ∈ nodes, c ∈ node.compatibles
  · rw [if_pos hin, if_neg]
    simpa [List.countP_eq_zero] using hin
  · rw [if_neg hin, if_pos]
    simpa [List.countP_eq_zero] using hin

/-- The serial ports of a device tree. -/
theorem serialsOf_nodes (nodes : List (DtNode String U)) :
    serialsOf (nodes.flatMap (nodeEffects (defaultDrivers reg b))) =
      .replicate (nodes.countP fun node =>
        "ns16550a" ∈ node.compatibles ∧ ((ns16550a reg).probe node).isSome) "ns16550a" := by
  rw [← flatMap_ite, serialsOf, List.filterMap_flatMap]
  exact List.flatMap_congr fun node _ => serialsOf_node node

/-- What a slot holds in the end. -/
theorem lastSet_nodes (k : SlotKind) {nodes : List (DtNode String U)}
    (hall : ∀ node ∈ nodes, Probed reg b node) :
    lastSet k (nodes.flatMap (nodeEffects (defaultDrivers reg b))) =
      (slotDriver k).bind fun x =>
        if ∃ node ∈ nodes, x.1 ∈ node.compatibles then some x.2 else none := by
  rw [lastSet, List.filterMap_flatMap, List.flatMap_congr fun node hnode => sets_node k (hall node hnode)]
  cases slotDriver k with
  | none => simp
  | some x =>
    rw [Option.bind_some, ← ite_countP, ← List.getLast?_replicate]
    exact congrArg List.getLast? (flatMap_ite _ _ _)

/-- **The built-in drivers** bring up what the device tree has. `boot` panics
exactly when `Chosen::stdout` does, or the probe of a node that one of them
matches: it has no `reg`, or a serial port has the address 0, or the parser
panics for the time base, or the address of the context of the interrupt
controller overflows; or a fifth serial port is there. Otherwise there is a
console exactly if there is a serial port, and the timer, the software
interrupt, the reset and the interrupt controller are there exactly if a node is
compatible with their driver. -/
theorem default_boot (stdout : Option Bool) (nodes : List (DtNode String U)) :
    (Platform.boot (some (defaultDrivers reg b)) stdout nodes = none ↔
      stdout = none ∨ (∃ node ∈ nodes, ProbePanics reg b node) ∨
      4 < nodes.countP fun node => "ns16550a" ∈ node.compatibles) ∧
    ∀ s, Platform.boot (some (defaultDrivers reg b)) stdout nodes = some s →
      (s.console.get = if ∃ node ∈ nodes, "ns16550a" ∈ node.compatibles then some "ns16550a"
        else none) ∧
      ∀ k, (s.slots k).get = (slotDriver k).bind fun x =>
        if ∃ node ∈ nodes, x.1 ∈ node.compatibles then some x.2 else none := by
  rcases Platform.boot_outcome (defaultDrivers reg b) stdout nodes with
    ⟨s, hs, ⟨hstdout, hall⟩, hgood⟩ | ⟨hnone, hbad⟩
  · have hprobed : ∀ node ∈ nodes, Probed reg b node := hall
    have hserials : serialsOf (nodes.flatMap (nodeEffects (defaultDrivers reg b))) =
        .replicate (nodes.countP fun node => "ns16550a" ∈ node.compatibles) "ns16550a" := by
      rw [serialsOf_nodes]
      refine congrArg (List.replicate · _) (List.countP_congr fun node hnode => ?_)
      simp only [decide_eq_true_eq]
      exact (hprobed node hnode).probe
        (show ns16550a reg ∈ defaultDrivers reg b by simp [defaultDrivers]) (matched_ofReg node)
    rw [hs]
    refine ⟨iff_of_false (fun h => by cases h) fun hbad => ?_, fun s' hs' => ?_⟩
    · rcases hbad with hnone | ⟨node, hnode, hpanic⟩ | hlt
      · exact hstdout hnone
      · exact (hprobed node hnode).not_panics hpanic
      · have hle := hgood.serials.le
        rw [hserials, List.length_replicate] at hle
        exact absurd hle (Nat.not_le.mpr hlt)
    · obtain rfl := Option.some.inj hs'
      refine ⟨?_, fun k => ?_⟩
      · rw [hgood.console, hserials, List.head?_replicate]
        exact ite_countP nodes _ _
      · rw [hgood.slots, lastSet_nodes k hprobed]
  · rw [hnone]
    refine ⟨iff_of_true rfl ?_, fun s hs => by cases hs⟩
    rcases hbad with hstdout | ⟨node, hnode, hpanic⟩ | hlt
    · exact Or.inl hstdout
    · exact Or.inr (Or.inl ⟨node, hnode, (probePanics_iff node).mp hpanic⟩)
    · rw [serialsOf_nodes, List.length_replicate] at hlt
      refine Or.inr (Or.inr (Nat.lt_of_lt_of_le hlt (List.countP_mono_left fun node _ h => ?_)))
      simp only [decide_eq_true_eq] at h ⊢
      exact h.1

end Builtin
end RtAsync.Driver

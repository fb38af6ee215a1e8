/-
# The bus of a device during boot

`platform/src/bus.rs` and the loop of `boot` in `platform/src/driver.rs`. The
device tree is walked in depth-first pre-order; the probe of a controller
registers its bus and pushes the index, and the probe of a device takes the
top of the stack. The stack keeps no levels: it is cleared when the level goes
down to 1 or below, and at no other time.

I2C and SPI are treated alike and apart from each other, so what is proved is
about one kind, `BusLane`. The console, pin and clock set-up of `boot` do not
touch the buses and are left out.

Key definitions: `BusLane`, `Buses.busStackPopTo`, `bootFrom`, `boot`, `walk`,
`SingleLayer`, `LeavesOk`.
Key theorems: `BusLane.registerAll_some`, `BusLane.bootFrom_iff`,
`bootFrom_lanes`, `boot_sees_parent`, `boot_stale_bus`.
-/
import RtAsync.Lib.BoundedVec
import RtAsync.Lib.Forest
import RtAsync.Platform.DeviceRegistry

namespace RtAsync.Driver

open Forest (Visit)

variable {C U B BI BS : Type}

/-! ### The source -/

/-- The entries of one kind in `BUS_STACK`, and the registry of that kind. -/
structure BusLane (B : Type) where
  stack : BoundedVec ℕ 8
  buses : DeviceRegistry B 4

namespace BusLane

def new : BusLane B := ⟨.new, .new⟩

def clear (s : BusLane B) : BusLane B := { s with stack := .new }

/-- `push`; a full stack is left as it is. -/
def push (s : BusLane B) (idx : ℕ) : BusLane B := { s with stack := (s.stack.push idx).getD s.stack }

/-- The bus at the top of the stack. -/
def current (s : BusLane B) : Option B := s.stack.toList.getLast?.bind s.buses.get

/-- What the probe of a controller does with its bus. -/
def register (s : BusLane B) (bus : B) : Option (BusLane B) :=
  (s.buses.register bus).map fun (buses, idx) => { s with buses }.push idx

end BusLane

/-- `BUS_STACK`, `I2C_BUSES` and `SPI_BUSES`. -/
structure Buses (BI BS : Type) where
  i2c : BusLane BI
  spi : BusLane BS

namespace Buses

def new : Buses BI BS := ⟨.new, .new⟩

def busStackReset (s : Buses BI BS) : Buses BI BS := ⟨s.i2c.clear, s.spi.clear⟩

def busStackPopTo (s : Buses BI BS) (level : ℕ) : Buses BI BS :=
  if level ≤ 1 then ⟨s.i2c.clear, s.spi.clear⟩ else s

def currentI2c (s : Buses BI BS) : Option BI := s.i2c.current

def currentSpi (s : Buses BI BS) : Option BS := s.spi.current

end Buses

/-- A node of the device tree: its `compatible` list, and what else a probe
reads of it. -/
structure DtNode (C U : Type) where
  compatibles : List C
  props : U

/-- A driver, and the bus that its probe of a node registers and pushes, for
each kind, if it is a controller of that kind. -/
structure BusDriver (C U BI BS : Type) where
  compatible : List C
  i2c : DtNode C U → Option BI
  spi : DtNode C U → Option BS

/-- `Driver::probe`, as far as the buses go; `none` is the panic of a full
registry. -/
def BusDriver.probe (drv : BusDriver C U BI BS) (node : DtNode C U) (s : Buses BI BS) :
    Option (Buses BI BS) :=
  ((drv.i2c node).elim (some s.i2c) s.i2c.register).bind fun i2c =>
    ((drv.spi node).elim (some s.spi) s.spi.register).map fun spi => ⟨i2c, spi⟩

section Boot

variable [DecidableEq C]

/-- Some `compatible` of the node is one of the driver's. -/
def matched (drv : BusDriver C U BI BS) (node : DtNode C U) : Bool :=
  node.compatibles.any fun nc => drv.compatible.any fun dc => dc = nc

/-- The loop over the drivers, for one node. -/
def probeAll (drivers : List (BusDriver C U BI BS)) (node : DtNode C U) (s : Buses BI BS) :
    Option (Buses BI BS) :=
  drivers.foldlM (fun s drv => if matched drv node then drv.probe node s else some s) s

/-- The loop of `boot` over the nodes with their levels, where the node before
was at `prevLevel`: what `current_i2c` and `current_spi` are when it starts to
probe each node. -/
def bootFrom (drivers : List (BusDriver C U BI BS)) (prevLevel : ℕ) (s : Buses BI BS) :
    List (ℕ × DtNode C U) → Option (List (Option BI × Option BS))
  | [] => some []
  | (level, node) :: nodes =>
    let s := if level < prevLevel then s.busStackPopTo level else s
    (probeAll drivers node s).bind fun s' =>
      (bootFrom drivers level s' nodes).map fun seen => (s.currentI2c, s.currentSpi) :: seen

/-- `boot`, over the nodes that `all_nodes` yields. -/
def boot (drivers : List (BusDriver C U BI BS)) (allNodes : List (ℕ × DtNode C U)) :
    Option (List (Option BI × Option BS)) :=
  bootFrom drivers 1 Buses.new.busStackReset allNodes

/-- The buses that the probes of a node register, in order. -/
def i2cBuses (drivers : List (BusDriver C U BI BS)) (node : DtNode C U) : List BI :=
  (drivers.filter fun drv => matched drv node).filterMap fun drv => drv.i2c node

def spiBuses (drivers : List (BusDriver C U BI BS)) (node : DtNode C U) : List BS :=
  (drivers.filter fun drv => matched drv node).filterMap fun drv => drv.spi node

end Boot

/-! ### One kind of bus -/

namespace BusLane

/-- The registrations of one node. -/
def registerAll (s : BusLane B) (buses : List B) : Option (BusLane B) := buses.foldlM register s

/-- `k` buses are registered, and the stack has no more entries. -/
def Holds (s : BusLane B) (k : ℕ) : Prop :=
  ∃ h : Registrations B 4, h.Inv ∧ h.registry = s.buses ∧ h.registered.length = k ∧
    s.stack.toList.length ≤ k

theorem Holds.clear {s : BusLane B} {k : ℕ} (h : s.Holds k) : s.clear.Holds k := by
  obtain ⟨r, hi, hr, hlen, -⟩ := h
  exact ⟨r, hi, hr, hlen, Nat.zero_le k⟩

/-- With room in the registry, the bus is registered and becomes the current
one. -/
theorem register_some {s : BusLane B} {k : ℕ} (h : s.Holds k) (hk : k < 4) (bus : B) :
    ∃ s', s.register bus = some s' ∧ s'.Holds (k + 1) ∧ s'.current = some bus := by
  obtain ⟨r, hi, hr, hlen, hstack⟩ := h
  cases hreg : r.registry.register bus with
  | none =>
    rw [DeviceRegistry.register_eq_none, hi.full_iff] at hreg
    omega
  | some p =>
    obtain ⟨buses, idx⟩ := p
    have hstep : r.step bus = some ⟨buses, r.registered ++ [(bus, idx)]⟩ := by
      simp [Registrations.step, hreg]
    have hi' := hi.next hstep
    have hget : buses.get idx = some bus := by
      obtain ⟨i, rfl, -, hslots⟩ := DeviceRegistry.register_eq_some hreg
      rw [buses.get_fin, hslots, Function.update_self, Slot.get_set]
    cases hpush : s.stack.push idx with
    | none =>
      rw [BoundedVec.push_eq_none] at hpush
      omega
    | some stack =>
      have happ := (BoundedVec.push_eq_some hpush).2
      refine ⟨⟨stack, buses⟩, by simp [register, ← hr, hreg, push, hpush], ⟨_, hi', rfl, ?_, ?_⟩, ?_⟩
      · simp [hlen]
      · rw [happ, List.length_append, List.length_singleton]
        omega
      · simp [current, happ, hget]

/-- The registrations of a node: the last one becomes the current bus, and
without one nothing changes. -/
theorem registerAll_some {s : BusLane B} {k : ℕ} (buses : List B) (h : s.Holds k)
    (hk : k + buses.length ≤ 4) : ∃ s', s.registerAll buses = some s' ∧
      s'.Holds (k + buses.length) ∧ s'.current = buses.getLast?.or s.current ∧
      (buses = [] → s' = s) := by
  induction buses generalizing s k with
  | nil => exact ⟨s, rfl, h, by simp, fun _ => rfl⟩
  | cons bus buses ih =>
    rw [List.length_cons] at hk
    obtain ⟨s₁, hs₁, h₁, hcur₁⟩ := register_some h (by omega) bus
    obtain ⟨s₂, hs₂, h₂, hcur₂, -⟩ := ih h₁ (by omega)
    refine ⟨s₂, by simp [registerAll, hs₁]; exact hs₂, ?_, ?_, fun h => by cases h⟩
    · rw [List.length_cons, show k + (buses.length + 1) = k + 1 + buses.length by omega]
      exact h₂
    · rw [hcur₂, hcur₁, List.getLast?_cons]
      cases buses.getLast? <;> rfl

/-- What `boot` does before it probes a node. -/
def enter (s : BusLane B) (prevLevel level : ℕ) : BusLane B :=
  if level ≤ 1 ∧ level < prevLevel then s.clear else s

/-- The loop of `boot`, for one kind: the levels of the nodes, and the buses
that they register. -/
def bootFrom (prevLevel : ℕ) (s : BusLane B) : List (ℕ × List B) → Option (List (Option B))
  | [] => some []
  | (level, buses) :: nodes =>
    ((s.enter prevLevel level).registerAll buses).bind fun s' =>
      (bootFrom level s' nodes).map fun seen => (s.enter prevLevel level).current :: seen

theorem Holds.enter {s : BusLane B} {k : ℕ} (h : s.Holds k) (prevLevel level : ℕ) :
    (s.enter prevLevel level).Holds k := by
  unfold BusLane.enter
  split
  · exact h.clear
  · exact h

theorem current_of_empty {s : BusLane B} (h : s.stack.toList = []) : s.current = none := by
  simp [current, h]

end BusLane

/-- The walk goes on in the subtree of a controller without clearing the stack,
and out of it with clearing it. -/
def LeavesOk {α : Type} (p n : Visit α (Option B)) : Prop :=
  p.below ≠ none → (n.above = none ↔ n.level ≤ 1 ∧ n.level < p.level)

/-- A node has no controller above, or the one that the node before it is
below of or is itself. -/
def Follows {α : Type} (p n : Visit α (Option B)) : Prop := n.above = none ∨ n.above = p.below

namespace BusLane

/-- After the node `p` the current bus is what `p` hands down, and the stack is
empty where that is nothing. -/
structure Shows {α : Type} (s : BusLane B) (p : Visit α (Option B)) : Prop where
  current : s.current = p.below
  empty : p.below = none → s.stack.toList = []

section Enter

variable {α : Type} {s : BusLane B} {p n : Visit α (Option B)}

/-- The node sees its parent bus exactly when the stack was cleared as it
should have been. -/
theorem Shows.enter_iff (h : s.Shows p) (hn : Follows p n) :
    (s.enter p.level n.level).current = n.above ↔ LeavesOk p n := by
  have hcleared : (s.enter p.level n.level).current =
      if n.level ≤ 1 ∧ n.level < p.level then none else p.below := by
    unfold BusLane.enter
    split
    · exact current_of_empty rfl
    · exact h.current
  rw [hcleared]
  unfold LeavesOk
  cases hb : p.below with
  | none =>
    have habove : n.above = none := hn.elim id fun he => he.trans hb
    simp [habove]
  | some b =>
    rcases hn with hnone | hin
    · simp [hnone]
    · rw [hb] at hin
      simp only [hin, ne_eq, reduceCtorEq, not_false_eq_true, false_iff, true_imp_iff]
      split
      · rename_i hc
        simp [hc]
      · rename_i hc
        simp only [hc, not_false_eq_true]

/-- A node that sees its parent bus leaves the bus that it hands down. -/
theorem Shows.next (h : s.Shows p) (hsee : (s.enter p.level n.level).current = n.above)
    {buses : List B} (hbelow : n.below = buses.getLast?.or n.above) {s' : BusLane B}
    (hcur : s'.current = buses.getLast?.or (s.enter p.level n.level).current)
    (hnil : buses = [] → s' = s.enter p.level n.level) : s'.Shows n := by
  refine ⟨by rw [hcur, hsee, hbelow], fun hnone => ?_⟩
  rw [hbelow, Option.or_eq_none_iff, List.getLast?_eq_none_iff] at hnone
  obtain ⟨hbuses, habove⟩ := hnone
  rw [hnil hbuses]
  rw [habove] at hsee
  unfold BusLane.enter at hsee ⊢
  split
  · rfl
  · rename_i hc
    rw [if_neg hc, h.current] at hsee
    exact h.empty hsee

end Enter

/-- The loop sees the parent bus at every node exactly when every step of the
walk leaves a controller with clearing the stack, and goes on below it
without. -/
theorem bootFrom_iff {α : Type} (buses : α → List B) {vs : List (Visit α (Option B))}
    {p : Visit α (Option B)} {s : BusLane B} {k : ℕ} (h : s.Holds k)
    (hk : k + (vs.flatMap fun v => buses v.node).length ≤ 4)
    (hbelow : ∀ v ∈ vs, v.below = (buses v.node).getLast?.or v.above)
    (hchain : List.IsChain Follows (p :: vs)) :
    ∃ seen, s.bootFrom p.level (vs.map fun v => (v.level, buses v.node)) = some seen ∧
      seen.length = vs.length ∧
      (s.Shows p → (seen = vs.map Visit.above ↔ List.IsChain LeavesOk (p :: vs))) := by
  induction vs generalizing p s k with
  | nil => exact ⟨[], rfl, rfl, fun _ => by simp⟩
  | cons n vs ih =>
    rw [List.flatMap_cons, List.length_append] at hk
    obtain ⟨hfollows, hchain⟩ := List.isChain_cons_cons.mp hchain
    obtain ⟨s', hs', h', hcur, hnil⟩ :=
      registerAll_some (buses n.node) (h.enter p.level n.level) (by omega)
    obtain ⟨seen, hseen, hlen, hiff⟩ :=
      ih h' (by omega) (fun v hv => hbelow v (List.mem_cons_of_mem n hv)) hchain
    refine ⟨(s.enter p.level n.level).current :: seen, ?_, by simp [hlen], fun hshows => ?_⟩
    · simp only [List.map_cons, bootFrom, hs', Option.bind_some, hseen, Option.map_some]
    · rw [List.map_cons, List.cons.injEq, List.isChain_cons_cons, ← hshows.enter_iff hfollows]
      refine and_congr_right fun hsee => hiff ?_
      exact hshows.next hsee (hbelow n List.mem_cons_self) hcur hnil

end BusLane

/-! ### Both kinds -/

section Lanes

variable [DecidableEq C] {drivers : List (BusDriver C U BI BS)} {s : Buses BI BS}

theorem BusLane.registerAll_append (s : BusLane B) (xs ys : List B) :
    s.registerAll (xs ++ ys) = (s.registerAll xs).bind fun s' => s'.registerAll ys := by
  simp only [registerAll, List.foldlM_append, Option.bind_eq_bind]

theorem BusLane.registerAll_toList (s : BusLane B) (bus : Option B) :
    s.registerAll bus.toList = bus.elim (some s) s.register := by
  cases bus with
  | none => rfl
  | some bus => simp [registerAll]

/-- The probes of a node act on each kind by itself. -/
theorem probeAll_lanes {node : DtNode C U} {i2c : BusLane BI} {spi : BusLane BS}
    (hi2c : s.i2c.registerAll (i2cBuses drivers node) = some i2c)
    (hspi : s.spi.registerAll (spiBuses drivers node) = some spi) :
    probeAll drivers node s = some ⟨i2c, spi⟩ := by
  induction drivers generalizing s with
  | nil =>
    cases hi2c
    cases hspi
    rfl
  | cons drv drivers ih =>
    by_cases hm : matched drv node = true
    · have hcons2 : i2cBuses (drv :: drivers) node =
          (drv.i2c node).toList ++ i2cBuses drivers node := by
        cases h : drv.i2c node <;> simp [i2cBuses, hm, h]
      have hconss : spiBuses (drv :: drivers) node =
          (drv.spi node).toList ++ spiBuses drivers node := by
        cases h : drv.spi node <;> simp [spiBuses, hm, h]
      rw [hcons2, BusLane.registerAll_append, BusLane.registerAll_toList,
        Option.bind_eq_some_iff] at hi2c
      rw [hconss, BusLane.registerAll_append, BusLane.registerAll_toList,
        Option.bind_eq_some_iff] at hspi
      obtain ⟨i2c₁, hi2c₁, hi2c⟩ := hi2c
      obtain ⟨spi₁, hspi₁, hspi⟩ := hspi
      have hprobe : drv.probe node s = some ⟨i2c₁, spi₁⟩ := by
        simp only [BusDriver.probe, hi2c₁, hspi₁, Option.bind_some, Option.map_some]
      have hrest : probeAll drivers node ⟨i2c₁, spi₁⟩ = some ⟨i2c, spi⟩ := ih hi2c hspi
      rw [probeAll, List.foldlM_cons, if_pos hm, hprobe]
      exact hrest
    · have hrest := ih (s := s) (by simpa [i2cBuses, hm] using hi2c)
        (by simpa [spiBuses, hm] using hspi)
      rw [probeAll, List.foldlM_cons, if_neg hm]
      exact hrest

theorem Buses.enter_i2c (prevLevel level : ℕ) :
    (if level < prevLevel then s.busStackPopTo level else s).i2c =
      s.i2c.enter prevLevel level := by
  unfold Buses.busStackPopTo BusLane.enter
  split_ifs <;> first | rfl | omega

theorem Buses.enter_spi (prevLevel level : ℕ) :
    (if level < prevLevel then s.busStackPopTo level else s).spi =
      s.spi.enter prevLevel level := by
  unfold Buses.busStackPopTo BusLane.enter
  split_ifs <;> first | rfl | omega

/-- The loop of `boot` acts on each kind by itself. -/
theorem bootFrom_lanes {nodes : List (ℕ × DtNode C U)} {prevLevel : ℕ}
    {xs : List (Option BI)} {ys : List (Option BS)}
    (hi2c : s.i2c.bootFrom prevLevel (nodes.map fun p => (p.1, i2cBuses drivers p.2)) = some xs)
    (hspi : s.spi.bootFrom prevLevel (nodes.map fun p => (p.1, spiBuses drivers p.2)) = some ys) :
    bootFrom drivers prevLevel s nodes = some (xs.zip ys) := by
  induction nodes generalizing prevLevel s xs ys with
  | nil =>
    cases hi2c
    cases hspi
    rfl
  | cons p nodes ih =>
    obtain ⟨level, node⟩ := p
    rw [List.map_cons, BusLane.bootFrom, Option.bind_eq_some_iff] at hi2c hspi
    obtain ⟨i2c, hi2c₁, hi2c⟩ := hi2c
    obtain ⟨spi, hspi₁, hspi⟩ := hspi
    obtain ⟨xs, hxs, rfl⟩ := Option.map_eq_some_iff.mp hi2c
    obtain ⟨ys, hys, rfl⟩ := Option.map_eq_some_iff.mp hspi
    rw [← Buses.enter_i2c] at hi2c₁ ⊢
    rw [← Buses.enter_spi] at hspi₁ ⊢
    have hrest : bootFrom drivers level ⟨i2c, spi⟩ nodes = some (xs.zip ys) := ih hxs hys
    simp only [bootFrom, probeAll_lanes hi2c₁ hspi₁, Option.bind_some, hrest, Option.map_some,
      Buses.currentI2c, Buses.currentSpi, List.zip_cons_cons]

end Lanes

/-! ### The walk of `boot` -/

/-- The walk over the tree; a node hands down its own bus, or else the one that
it is handed, so `above` is the bus of the nearest controller above. -/
def walk {α : Type} (buses : α → List B) (base : ℕ) (tree : Forest α) :
    List (Visit α (Option B)) :=
  tree.visits (fun node above => (buses node).getLast?.or above) base none

/-- At most four registrations, and no controller below another one. -/
structure SingleLayer {α : Type} (buses : α → List B) (base : ℕ) (tree : Forest α) : Prop where
  few : ((walk buses base tree).flatMap fun v => buses v.node).length ≤ 4
  flat : ∀ v ∈ walk buses base tree, buses v.node ≠ [] → v.above = none

section Walk

variable {α : Type} {buses : α → List B} {base : ℕ} {tree : Forest α}

theorem walk_below {v : Visit α (Option B)} (h : v ∈ walk buses base tree) :
    v.below = (buses v.node).getLast?.or v.above := Forest.below_eq h

/-- Below a single layer of controllers, only the step out of a controller
changes the bus. -/
theorem SingleLayer.isChain_follows (h : SingleLayer buses base tree)
    {p : Visit α (Option B)} : List.IsChain Follows (p :: walk buses base tree) := by
  have hback : ∀ v ∈ walk buses base tree, ∀ x, (v.below = none ∨ v.below = x) →
      (v.above = none ∨ v.above = x) := by
    intro v hv x hx
    by_cases hb : buses v.node = []
    · have hsame : v.below = v.above := by
        rw [walk_below hv, hb]
        rfl
      rwa [hsame] at hx
    · exact Or.inl (h.flat v hv hb)
  have hchain : List.IsChain Follows (p :: (walk buses base tree ++ [])) :=
    Forest.isChain_visits (Q := fun x y => y = none ∨ y = x) (fun _ => Or.inr rfl) tree hback
      (Or.inl rfl) fun q _ => List.isChain_singleton q
  rwa [List.append_nil] at hchain

/-- For one kind, every node sees the bus of the controller above it exactly
when the walk leaves every controller with clearing the stack. -/
theorem BusLane.boot_iff (h : SingleLayer buses base tree) :
    ∃ seen, BusLane.new.bootFrom 1 ((tree.preorder base).map fun p => (p.1, buses p.2)) =
        some seen ∧ seen.length = (tree.preorder base).length ∧
      (seen = (walk buses base tree).map Visit.above ↔
        List.IsChain LeavesOk (walk buses base tree)) := by
  have hnodes : ((tree.preorder base).map fun p => (p.1, buses p.2)) =
      (walk buses base tree).map fun v => (v.level, buses v.node) := by
    rw [← Forest.map_visits (fun node above => (buses node).getLast?.or above) base none,
      List.map_map]
    rfl
  have hlength : (tree.preorder base).length = (walk buses base tree).length := by
    rw [← Forest.map_visits (fun node above => (buses node).getLast?.or above) base none,
      List.length_map]
    rfl
  rw [hnodes, hlength]
  cases hw : walk buses base tree with
  | nil => exact ⟨[], rfl, rfl, by simp⟩
  | cons v vs =>
    -- before the first node there is no bus, so leaving that asks for nothing
    let p : Visit α (Option B) := ⟨1, v.node, none, none⟩
    have hnew : (BusLane.new : BusLane B).Holds 0 :=
      ⟨⟨.new, []⟩, Registrations.inv_init, rfl, rfl, le_refl 0⟩
    have hshows : (BusLane.new : BusLane B).Shows p := ⟨rfl, fun _ => rfl⟩
    have hfew := h.few
    obtain ⟨seen, hseen, hlen, hiff⟩ := bootFrom_iff (p := p) buses hnew (by omega)
      (fun _ hv => walk_below hv) h.isChain_follows
    rw [hw] at hseen hlen hiff
    refine ⟨seen, hseen, hlen, (hiff hshows).trans ?_⟩
    rw [List.isChain_cons_cons, and_iff_right_iff_imp]
    exact fun _ hp => absurd rfl hp

end Walk

/-- **What a device sees.** With at most four controllers of each kind, none
below another of its kind, `boot` does not panic; and every node sees the bus
of the controller above it, and none where there is none, exactly when every
step of the walk that leaves a controller goes down to level 1 or below, and no
other step from below it does. -/
theorem boot_sees_parent [DecidableEq C] (drivers : List (BusDriver C U BI BS)) (base : ℕ)
    (tree : Forest (DtNode C U)) (hi2c : SingleLayer (i2cBuses drivers) base tree)
    (hspi : SingleLayer (spiBuses drivers) base tree) :
    ∃ seen, boot drivers (tree.preorder base) = some seen ∧
      (seen.map Prod.fst = (walk (i2cBuses drivers) base tree).map Visit.above ↔
        List.IsChain LeavesOk (walk (i2cBuses drivers) base tree)) ∧
      (seen.map Prod.snd = (walk (spiBuses drivers) base tree).map Visit.above ↔
        List.IsChain LeavesOk (walk (spiBuses drivers) base tree)) := by
  obtain ⟨xs, hxs, hxlen, hxiff⟩ := BusLane.boot_iff hi2c
  obtain ⟨ys, hys, hylen, hyiff⟩ := BusLane.boot_iff hspi
  refine ⟨xs.zip ys, bootFrom_lanes hxs hys, ?_, ?_⟩
  · rwa [List.map_fst_zip (by omega)]
  · rwa [List.map_snd_zip (by omega)]

/-- An I2C controller is a node that is compatible with 1; its bus is 7. -/
def i2cDriver : BusDriver ℕ Unit ℕ ℕ := ⟨[1], fun _ => some 7, fun _ => none⟩

/-- A controller with a child, and then a device beside it. -/
def busThenDevice : Forest (DtNode ℕ Unit) :=
  .cons ⟨[0], ()⟩ (.cons ⟨[1], ()⟩ (.cons ⟨[2], ()⟩ .nil .nil) (.cons ⟨[3], ()⟩ .nil .nil)) .nil

/-- A controller without a child, and then a device beside it. -/
def emptyBusThenDevice : Forest (DtNode ℕ Unit) :=
  .cons ⟨[0], ()⟩ (.cons ⟨[1], ()⟩ .nil (.cons ⟨[3], ()⟩ .nil .nil)) .nil

theorem boot_sees_parent_small : ∃ seen,
    boot [i2cDriver] (busThenDevice.preorder 0) = some seen ∧
      seen.map Prod.fst = [none, none, some 7, none] := by
  have hi2c : SingleLayer (i2cBuses [i2cDriver]) 0 busThenDevice := ⟨by decide, by decide⟩
  have hspi : SingleLayer (spiBuses [i2cDriver]) 0 busThenDevice := ⟨by decide, by decide⟩
  obtain ⟨seen, hseen, hiff, -⟩ := boot_sees_parent [i2cDriver] 0 busThenDevice hi2c hspi
  have hleaves : List.IsChain LeavesOk (walk (i2cBuses [i2cDriver]) 0 busThenDevice) := by
    simp [walk, busThenDevice, Forest.visits, i2cBuses, i2cDriver, matched, LeavesOk]
  exact ⟨seen, hseen, hiff.mpr hleaves⟩

/-- The walk goes from a controller to the device beside it without going down,
and the device sees the bus. -/
theorem boot_stale_bus : ¬∀ (drivers : List (BusDriver ℕ Unit ℕ ℕ)) (tree : Forest (DtNode ℕ Unit)),
    SingleLayer (i2cBuses drivers) 0 tree → SingleLayer (spiBuses drivers) 0 tree →
    ∃ seen, boot drivers (tree.preorder 0) = some seen ∧
      seen.map Prod.fst = (walk (i2cBuses drivers) 0 tree).map Visit.above ∧
      seen.map Prod.snd = (walk (spiBuses drivers) 0 tree).map Visit.above := by
  intro h
  have hi2c : SingleLayer (i2cBuses [i2cDriver]) 0 emptyBusThenDevice := ⟨by decide, by decide⟩
  have hspi : SingleLayer (spiBuses [i2cDriver]) 0 emptyBusThenDevice := ⟨by decide, by decide⟩
  obtain ⟨seen, hseen, hfst, -⟩ := h [i2cDriver] emptyBusThenDevice hi2c hspi
  have hboot : boot [i2cDriver] (emptyBusThenDevice.preorder 0) =
      some [(none, none), (none, none), (some 7, none)] := by decide
  rw [hboot] at hseen
  cases hseen
  revert hfst
  decide

end RtAsync.Driver

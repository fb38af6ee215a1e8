/-
# The device registry

`Slot` and `DeviceRegistry` of `platform/src/driver.rs`. `register` looks for an
empty slot from the cursor on, around the end of the array; `get` reduces its
argument modulo the capacity, so that an index out of range reads the slot of
another one. A run of registrations is kept with the devices and the indices
that were returned.

Key definitions: `Slot`, `DeviceRegistry.register`, `DeviceRegistry.get`,
`DeviceRegistry.iter`, `Registrations`, `Registrations.GetExact`.
Key theorems: `DeviceRegistry.register_eq_some`, `DeviceRegistry.register_eq_none`,
`Registrations.Inv.next`, `Registrations.get_inverse_iff`,
`Registrations.get_out_of_range`.
-/
import Mathlib.Data.List.FinRange
import Mathlib.Data.List.Nodup
import RtAsync.Lib.Transition

namespace RtAsync.Driver

open Function (update update_self update_of_ne)
open Transition (Reach reach_of_exec exec)

variable {N : ℕ} {T : Type}

/-! ### The source -/

/-- `Slot<T>`: a cell that may not have been written, and whether it has. -/
structure Slot (T : Type) where
  ready : Bool
  val : Option T
  written : ready = true → val.isSome = true

namespace Slot

def new : Slot T := ⟨false, none, fun h => by cases h⟩

/-- `Slot::set`. -/
def set (_self : Slot T) (dev : T) : Slot T := ⟨true, some dev, fun _ => rfl⟩

/-- `Slot::get`. -/
def get (self : Slot T) : Option T :=
  if h : self.ready = true then some (self.val.get (self.written h)) else none

@[simp] theorem get_new : (new : Slot T).get = none := rfl

@[simp] theorem get_set (s : Slot T) (dev : T) : (s.set dev).get = some dev := rfl

end Slot

/-- `DeviceRegistry<T, N>`. -/
structure DeviceRegistry (T : Type) (N : ℕ) where
  slots : Fin N → Slot T
  next : ℕ

namespace DeviceRegistry

def new : DeviceRegistry T N := ⟨fun _ => .new, 0⟩

/-- The first empty slot that the loop of `register` finds. -/
def findEmpty (self : DeviceRegistry T N) : Option (Fin N) :=
  let start := self.next
  (List.finRange N).findSome? fun i : Fin N =>
    let idx : Fin N := ⟨(start + i) % N, Nat.mod_lt _ i.pos⟩
    if (self.slots idx).get.isNone then some idx else none

/-- `register`, with the registry it leaves and the index it returns; `none` is
the panic. -/
def register (self : DeviceRegistry T N) (dev : T) : Option (DeviceRegistry T N × ℕ) :=
  self.findEmpty.map fun idx =>
    (⟨update self.slots idx ((self.slots idx).set dev), (idx + 1) % N⟩, idx)

/-- `get`. -/
def get (self : DeviceRegistry T N) (idx : ℕ) : Option T :=
  if h : 0 < N then (self.slots ⟨idx % N, Nat.mod_lt idx h⟩).get else none

/-- `iter`. -/
def iter (self : DeviceRegistry T N) : List T :=
  (List.finRange N).filterMap fun i => (self.slots i).get

/-! ### What the operations do -/

theorem get_fin (self : DeviceRegistry T N) (i : Fin N) : self.get i = (self.slots i).get := by
  have hi : (⟨i % N, Nat.mod_lt _ i.pos⟩ : Fin N) = i := Fin.ext (Nat.mod_eq_of_lt i.isLt)
  rw [get, dif_pos i.pos, hi]

/-- The loop comes by every slot, wherever it starts. -/
theorem exists_probe (start : ℕ) (j : Fin N) : ∃ i : Fin N, (start + i) % N = j := by
  have hj := j.isLt
  have hstart : start % N < N := Nat.mod_lt _ j.pos
  by_cases hle : start % N ≤ j
  · refine ⟨⟨j - start % N, by omega⟩, ?_⟩
    rw [← Nat.mod_add_mod]
    show (start % N + (j - start % N)) % N = j
    rw [Nat.add_sub_cancel' hle, Nat.mod_eq_of_lt hj]
  · refine ⟨⟨j + N - start % N, by omega⟩, ?_⟩
    rw [← Nat.mod_add_mod]
    show (start % N + (j + N - start % N)) % N = j
    rw [Nat.add_sub_cancel' (by omega), Nat.add_mod_right, Nat.mod_eq_of_lt hj]

theorem findEmpty_eq_some {self : DeviceRegistry T N} {idx : Fin N}
    (h : self.findEmpty = some idx) : (self.slots idx).get = none := by
  obtain ⟨i, -, hi⟩ := List.exists_of_findSome?_eq_some h
  obtain ⟨hnone, hidx⟩ := Option.ite_none_right_eq_some.mp hi
  rw [← Option.some.inj hidx]
  exact Option.isNone_iff_eq_none.mp hnone

theorem findEmpty_eq_none {self : DeviceRegistry T N} :
    self.findEmpty = none ↔ ∀ i, (self.slots i).get ≠ none := by
  unfold findEmpty
  rw [List.findSome?_eq_none_iff]
  constructor
  · intro h j hj
    obtain ⟨i, hi⟩ := exists_probe self.next j
    have hidx : (⟨(self.next + i) % N, Nat.mod_lt _ i.pos⟩ : Fin N) = j := Fin.ext hi
    have hnone := h i (List.mem_finRange i)
    simp only [hidx, hj, Option.isNone_none, if_true, reduceCtorEq] at hnone
  · intro h i _
    rw [if_neg]
    rw [Option.isNone_iff_eq_none]
    exact h _

/-- `register` fails where no slot is empty. -/
theorem register_eq_none {self : DeviceRegistry T N} {dev : T} :
    self.register dev = none ↔ ∀ i, (self.slots i).get ≠ none := by
  rw [register, Option.map_eq_none_iff, findEmpty_eq_none]

/-- `register` fills an empty slot, and returns its index. -/
theorem register_eq_some {self r : DeviceRegistry T N} {dev : T} {idx : ℕ}
    (h : self.register dev = some (r, idx)) : ∃ i : Fin N, idx = i ∧
      (self.slots i).get = none ∧ r.slots = update self.slots i ((self.slots i).set dev) := by
  obtain ⟨i, hi, he⟩ := Option.map_eq_some_iff.mp h
  obtain ⟨rfl, rfl⟩ := Prod.mk.inj he
  exact ⟨i, rfl, findEmpty_eq_some hi, rfl⟩

/-- One more of the list has a value. -/
theorem filterMap_set {α β : Type*} {l : List α} {f g : α → Option β} {a : α} {b : β}
    (hl : l.Nodup) (ha : a ∈ l) (hf : f a = none) (hg : g a = some b)
    (heq : ∀ x, x ≠ a → g x = f x) : (l.filterMap g).Perm (b :: l.filterMap f) := by
  obtain ⟨l₁, l₂, rfl⟩ := List.append_of_mem ha
  have hnodup := List.nodup_middle.mp hl
  have hne : ∀ x ∈ l₁ ++ l₂, x ≠ a := by
    rintro x hx rfl
    exact (List.nodup_cons.mp hnodup).1 hx
  have h₁ : l₁.filterMap g = l₁.filterMap f :=
    List.filterMap_congr fun x hx => heq x (hne x (List.mem_append_left _ hx))
  have h₂ : l₂.filterMap g = l₂.filterMap f :=
    List.filterMap_congr fun x hx => heq x (hne x (List.mem_append_right _ hx))
  rw [List.filterMap_append, List.filterMap_append, List.filterMap_cons_some hg,
    List.filterMap_cons_none hf, h₁, h₂]
  exact List.perm_middle

theorem iter_set {self r : DeviceRegistry T N} {dev : T} {i : Fin N}
    (hnone : (self.slots i).get = none)
    (hr : r.slots = update self.slots i ((self.slots i).set dev)) :
    r.iter.Perm (dev :: self.iter) := by
  unfold iter
  rw [hr]
  refine filterMap_set (List.nodup_finRange N) (List.mem_finRange i) hnone ?_ fun j hj => ?_
  · rw [update_self, Slot.get_set]
  · rw [update_of_ne hj]

end DeviceRegistry

/-! ### Registrations -/

/-- A registry, and the devices registered so far with the indices returned. -/
structure Registrations (T : Type) (N : ℕ) where
  registry : DeviceRegistry T N
  registered : List (T × ℕ)

namespace Registrations

def init : Registrations T N := ⟨.new, []⟩

/-- One call of `register`. -/
def step (h : Registrations T N) (dev : T) : Option (Registrations T N) :=
  (h.registry.register dev).map fun (r, idx) => ⟨r, h.registered ++ [(dev, idx)]⟩

/-- `get(idx)` is the device whose registration returned `idx`, if there is
one. -/
def GetExact (h : Registrations T N) (idx : ℕ) : Prop :=
  ∀ d, h.registry.get idx = some d ↔ (d, idx) ∈ h.registered

/-- The slots hold what was registered, each at its own index. -/
structure Inv (h : Registrations T N) : Prop where
  slots : ∀ (i : Fin N) d, (h.registry.slots i).get = some d ↔ (d, (i : ℕ)) ∈ h.registered
  lt : ∀ p ∈ h.registered, p.2 < N
  nodup : (h.registered.map Prod.snd).Nodup
  iter : h.registry.iter.Perm (h.registered.map Prod.fst)

theorem inv_init : (init : Registrations T N).Inv where
  slots := fun _ _ => by simp [init, DeviceRegistry.new]
  lt := fun _ hp => by cases hp
  nodup := List.nodup_nil
  iter := by simp [init, DeviceRegistry.iter, DeviceRegistry.new]

namespace Inv

variable {h : Registrations T N}

/-- A slot is empty where no registration has returned its index. -/
theorem get_eq_none_iff (hi : h.Inv) (i : Fin N) :
    (h.registry.slots i).get = none ↔ (i : ℕ) ∉ h.registered.map Prod.snd := by
  constructor
  · intro hnone hmem
    obtain ⟨⟨d, j⟩, hp, hj⟩ := List.mem_map.mp hmem
    obtain rfl : j = i := hj
    rw [(hi.slots i d).mpr hp] at hnone
    cases hnone
  · intro hno
    by_contra hsome
    obtain ⟨d, hd⟩ := Option.ne_none_iff_exists'.mp hsome
    exact hno (List.mem_map.mpr ⟨(d, i), (hi.slots i d).mp hd, rfl⟩)

theorem next {h' : Registrations T N} {dev : T} (hi : h.Inv) (hs : step h dev = some h') :
    h'.Inv := by
  obtain ⟨⟨r, idx⟩, hr, rfl⟩ := Option.map_eq_some_iff.mp hs
  obtain ⟨i, rfl, hnone, hslots⟩ := DeviceRegistry.register_eq_some hr
  have hfresh : (i : ℕ) ∉ h.registered.map Prod.snd := (hi.get_eq_none_iff i).mp hnone
  refine ⟨fun j d => ?_, fun p hp => ?_, ?_, ?_⟩
  · rw [hslots, List.mem_append, List.mem_singleton]
    by_cases hj : j = i
    · subst hj
      rw [update_self, Slot.get_set, ← hi.slots j d, hnone]
      simp [eq_comm]
    · have hne : (d, (j : ℕ)) ≠ (dev, (i : ℕ)) := fun he => hj (Fin.ext (Prod.mk.inj he).2)
      rw [update_of_ne hj, hi.slots j d, or_iff_left hne]
  · rcases List.mem_append.mp hp with hp | hp
    · exact hi.lt p hp
    · rw [List.mem_singleton.mp hp]
      exact i.isLt
  · rw [List.map_append, List.map_singleton]
    exact hi.nodup.append (List.nodup_singleton _) (List.disjoint_singleton.mpr hfresh)
  · rw [List.map_append, List.map_singleton]
    exact (DeviceRegistry.iter_set hnone hslots).trans
      ((hi.iter.cons dev).trans (List.perm_append_singleton _ _).symm)

/-- Every slot is full when as many devices are registered as there are
slots. -/
theorem full_iff (hi : h.Inv) :
    (∀ i, (h.registry.slots i).get ≠ none) ↔ h.registered.length = N := by
  have hsub : h.registered.map Prod.snd ⊆ List.range N := fun j hj => by
    obtain ⟨p, hp, rfl⟩ := List.mem_map.mp hj
    exact List.mem_range.mpr (hi.lt p hp)
  have hperm := List.subperm_of_subset hi.nodup hsub
  have hle : h.registered.length ≤ N := by simpa using hperm.length_le
  constructor
  · intro hfull
    have hsup : List.range N ⊆ h.registered.map Prod.snd := fun j hj => by
      have hj' := hfull ⟨j, List.mem_range.mp hj⟩
      rw [Ne, hi.get_eq_none_iff, not_not] at hj'
      exact hj'
    have hge := (List.subperm_of_subset List.nodup_range hsup).length_le
    rw [List.length_range, List.length_map] at hge
    omega
  · intro hlen i hnone
    have hall := hperm.perm_of_length_le (by simp [hlen])
    exact (hi.get_eq_none_iff i).mp hnone (hall.mem_iff.mpr (List.mem_range.mpr i.isLt))

/-- `get` is exact at the indices in range, and out of range where the slot that
it reads is empty. -/
theorem getExact_iff (hi : h.Inv) (idx : ℕ) :
    h.GetExact idx ↔ idx < N ∨ idx % N ∉ h.registered.map Prod.snd := by
  by_cases hidx : idx < N
  · refine iff_of_true (fun d => ?_) (Or.inl hidx)
    rw [h.registry.get_fin ⟨idx, hidx⟩]
    exact hi.slots ⟨idx, hidx⟩ d
  · have hout : ∀ d, (d, idx) ∉ h.registered := fun d hd => hidx (hi.lt _ hd)
    have hnone : h.GetExact idx ↔ h.registry.get idx = none := by
      unfold GetExact
      rw [Option.eq_none_iff_forall_ne_some]
      exact forall_congr' fun d => by simp [hout d]
    rw [hnone, or_iff_right hidx]
    by_cases hN : 0 < N
    · rw [DeviceRegistry.get, dif_pos hN]
      exact hi.get_eq_none_iff ⟨idx % N, Nat.mod_lt idx hN⟩
    · refine iff_of_true (by rw [DeviceRegistry.get, dif_neg hN]) fun hmem => ?_
      obtain ⟨p, hp, -⟩ := List.mem_map.mp hmem
      exact hN (Nat.zero_lt_of_lt (hi.lt p hp))

end Inv

/-- **When `get` is the inverse of `register`.** After any registrations:
`register` fails exactly when as many devices are registered as there are
slots; otherwise it returns an index below `N` that was not returned before,
puts the device there and changes no other slot; `iter` yields every
registered device once; and `get(idx)` is the device whose registration
returned `idx`, or `None` if there is none, exactly when `idx` is in range or
no registration has returned `idx % N`. -/
theorem get_inverse_iff {h : Registrations T N} (hr : Reach step init h) :
    (∀ dev, h.registry.register dev = none ↔ h.registered.length = N) ∧
    (∀ dev r idx, h.registry.register dev = some (r, idx) →
      idx < N ∧ idx ∉ h.registered.map Prod.snd ∧ r.get idx = some dev ∧
      ∀ j, j < N → j ≠ idx → r.get j = h.registry.get j) ∧
    h.registry.iter.Perm (h.registered.map Prod.fst) ∧
    ∀ idx, h.GetExact idx ↔ idx < N ∨ idx % N ∉ h.registered.map Prod.snd := by
  have hi : h.Inv := hr.invariant (fun _ _ _ hi hs => hi.next hs) inv_init
  refine ⟨fun dev => ?_, fun dev r idx hreg => ?_, hi.iter, hi.getExact_iff⟩
  · rw [DeviceRegistry.register_eq_none, hi.full_iff]
  · obtain ⟨i, rfl, hnone, hslots⟩ := DeviceRegistry.register_eq_some hreg
    refine ⟨i.isLt, (hi.get_eq_none_iff i).mp hnone, ?_, fun j hj hne => ?_⟩
    · rw [r.get_fin, hslots, update_self, Slot.get_set]
    · have hne' : (⟨j, hj⟩ : Fin N) ≠ i := fun he => hne (congrArg Fin.val he)
      rw [r.get_fin ⟨j, hj⟩, h.registry.get_fin ⟨j, hj⟩, hslots, update_of_ne hne']

/-- Two devices in three slots: the third index is `None`, the fourth is the
first device. -/
theorem get_inverse_iff_two : ∃ h : Registrations ℕ 3, h.registered = [(7, 0), (8, 1)] ∧
    h.registry.iter.Perm [7, 8] ∧ h.GetExact 2 ∧ ¬h.GetExact 3 := by
  have hrun : (exec step (init : Registrations ℕ 3) [7, 8]).map registered =
      some [(7, 0), (8, 1)] := by decide
  obtain ⟨h, hexec, hreg⟩ := Option.map_eq_some_iff.mp hrun
  obtain ⟨-, -, hiter, hexact⟩ := get_inverse_iff (reach_of_exec _ hexec)
  rw [hreg] at hiter hexact
  exact ⟨h, hreg, hiter, (hexact 2).mpr (by decide), fun h3 => absurd ((hexact 3).mp h3) (by decide)⟩

/-- One slot, whose device is found at the index 1. -/
theorem get_out_of_range : ¬∀ h : Registrations ℕ 1, Reach step init h → ∀ idx, h.GetExact idx := by
  intro hall
  have hrun : (exec step (init : Registrations ℕ 1) [7]).map
      (fun h => (h.registry.get 1, h.registered)) = some (some 7, [(7, 0)]) := by decide
  obtain ⟨h, hexec, hobs⟩ := Option.map_eq_some_iff.mp hrun
  obtain ⟨hget, hreg⟩ := Prod.mk.inj hobs
  have hmem := (hall h (reach_of_exec _ hexec) 1 7).mp hget
  rw [hreg] at hmem
  exact absurd hmem (by decide)

end Registrations
end RtAsync.Driver

/-
# Preemptive priority scheduling

Work is released to levels, the smaller the more urgent, and taken at each
level in the order of its release. A level is entered when it has work, no
more urgent level has any, and it is more urgent than all levels that are
active; it takes work only while it is the innermost active level; it is left
when it has none.

From the moment a level is entered until it is left, what is taken is its own
work, in order, or more urgent work, and this has been released since.

Key definitions: `Preemptive.Sched`, `Preemptive.Decision`, `Preemptive.Step`,
`Sched.Sorted`, `released`, `fetched`.
Key theorems: `Sched.Sorted.step`, `run_fifo`, `run_fetch_le`, `run_released_since`,
`guarantee`.
-/
import Mathlib.Order.Lattice
import Mathlib.Logic.Function.Basic
import Mathlib.Data.List.Infix
import RtAsync.Lib.Refinement

namespace Preemptive

open Function (update update_self update_of_ne)
open Transition (Run)

/-- What is ready at each level, and the active levels, innermost first. -/
structure Sched (α τ : Type*) where
  ready : α → List τ
  active : List α

inductive Decision (α τ : Type*)
  | release (a : α) (t : τ)
  | enter (a : α)
  | fetch (a : α) (t : τ)
  | leave (a : α)
  deriving DecidableEq

variable {α τ : Type*} [LinearOrder α]

inductive Step : Sched α τ → Decision α τ → Sched α τ → Prop
  | release (s : Sched α τ) (a : α) (t : τ) :
      Step s (.release a t) { s with ready := update s.ready a (s.ready a ++ [t]) }
  | enter {s : Sched α τ} {a : α} : s.ready a ≠ [] → (∀ b, s.ready b ≠ [] → a ≤ b) →
      (∀ b ∈ s.active, a < b) → Step s (.enter a) { s with active := a :: s.active }
  | fetch {s : Sched α τ} {a : α} {as : List α} {t : τ} {ts : List τ} : s.active = a :: as →
      s.ready a = t :: ts → Step s (.fetch a t) { s with ready := update s.ready a ts }
  | leave {s : Sched α τ} {a : α} {as : List α} : s.active = a :: as → s.ready a = [] →
      Step s (.leave a) { s with active := as }

/-- What is released to a level. -/
def released (a : α) : List (Decision α τ) → List τ :=
  List.filterMap fun
    | .release b t => if b = a then some t else none
    | _ => none

/-- What is taken at a level. -/
def fetched (a : α) : List (Decision α τ) → List τ :=
  List.filterMap fun
    | .fetch b t => if b = a then some t else none
    | _ => none

variable {s s' : Sched α τ} {x : Decision α τ} {xs : List (Decision α τ)}

/-- The inner level is the more urgent one. -/
def Sched.Sorted (s : Sched α τ) : Prop := s.active.Pairwise (· < ·)

theorem Sched.Sorted.step (hs : s.Sorted) (h : Step s x s') : s'.Sorted := by
  cases h with
  | release => exact hs
  | enter _ _ hlt => exact List.pairwise_cons.mpr ⟨hlt, hs⟩
  | fetch => exact hs
  | leave hact =>
    unfold Sched.Sorted at hs
    rw [hact] at hs
    exact (List.pairwise_cons.mp hs).2

theorem Sched.Sorted.head_le {a b : α} {as : List α} (hs : s.Sorted) (hact : s.active = a :: as)
    (hb : b ∈ s.active) : a ≤ b := by
  unfold Sched.Sorted at hs
  rw [hact] at hs hb
  rcases List.mem_cons.mp hb with rfl | hb
  · exact le_refl _
  · exact le_of_lt ((List.pairwise_cons.mp hs).1 b hb)

theorem Step.fifo (h : Step s x s') (a : α) :
    s.ready a ++ released a [x] = fetched a [x] ++ s'.ready a := by
  cases h with
  | release b t =>
    by_cases hba : b = a
    · subst hba
      simp [released, fetched]
    · simp [released, fetched, hba, update_of_ne (Ne.symm hba)]
  | enter => simp [released, fetched]
  | leave => simp [released, fetched]
  | @fetch b _ t ts _ hb =>
    by_cases hba : b = a
    · subst hba
      simp [released, fetched, hb]
    · simp [released, fetched, hba, update_of_ne (Ne.symm hba)]

theorem run_fifo (h : Run Step s xs s') (a : α) :
    s.ready a ++ released a xs = fetched a xs ++ s'.ready a := by
  induction h with
  | nil => simp [released, fetched]
  | @cons s s₁ s' x xs hx hxs ih =>
    have hstep := hx.fifo a
    have hrel : released a ([x] ++ xs) = released a [x] ++ released a xs := List.filterMap_append
    have hfet : fetched a ([x] ++ xs) = fetched a [x] ++ fetched a xs := List.filterMap_append
    rw [List.singleton_append] at hrel hfet
    rw [hrel, hfet, ← List.append_assoc, hstep, List.append_assoc, ih, List.append_assoc]

theorem Step.stays_active {a : α} (h : Step s x s') (ha : a ∈ s.active) (hx : x ≠ .leave a) :
    a ∈ s'.active := by
  cases h with
  | release => exact ha
  | enter => exact List.mem_cons_of_mem _ ha
  | fetch => exact ha
  | leave hact _ =>
    rw [hact] at ha
    rcases List.mem_cons.mp ha with rfl | ha
    · exact absurd rfl hx
    · exact ha

/-- While a level is active, nothing less urgent is taken. -/
theorem run_fetch_le {a : α} (h : Run Step s xs s') (hs : s.Sorted) (ha : a ∈ s.active)
    (hno : .leave a ∉ xs) {b : α} {t : τ} (hf : .fetch b t ∈ xs) : b ≤ a := by
  induction h with
  | nil => cases hf
  | cons hx hxs ih =>
    have hne := List.ne_of_not_mem_cons hno
    rcases List.mem_cons.mp hf with rfl | hf
    · cases hx with
      | fetch hact _ => exact hs.head_le hact ha
    · exact ih (hs.step hx) (hx.stays_active ha (Ne.symm hne)) (List.not_mem_of_not_mem_cons hno) hf

theorem run_released_since {b : α} {t : τ} (h : Run Step s xs s') (ht : .fetch b t ∈ xs) :
    t ∈ s.ready b ∨ .release b t ∈ xs := by
  have hmem : t ∈ fetched b xs := List.mem_filterMap.mpr ⟨_, ht, by simp⟩
  have hin : t ∈ s.ready b ++ released b xs := by
    rw [run_fifo h b]
    exact List.mem_append_left _ hmem
  refine (List.mem_append.mp hin).imp_right fun hrel => ?_
  obtain ⟨y, hy, hyt⟩ := List.mem_filterMap.mp hrel
  split at hyt
  · obtain ⟨rfl, hty⟩ := Option.ite_none_right_eq_some.mp hyt
    rw [← Option.some.inj hty]
    exact hy
  · cases hyt

/-- Where a level is entered, nothing more urgent is ready. -/
theorem Step.enter_ready {a b : α} (h : Step s (.enter a) s') (hb : b < a) : s'.ready b = [] := by
  cases h with
  | enter _ hleast _ =>
    by_contra hne
    exact absurd hb (not_lt.mpr (hleast b hne))

/-- From the moment a level is entered until it is left, what is taken is its
own work, in the order of release, or more urgent work that has been released
since. -/
theorem guarantee {s₀ : Sched α τ} {a : α} (hs₀ : s₀.Sorted) (henter : Step s₀ (.enter a) s)
    (h : Run Step s xs s') (hno : .leave a ∉ xs) :
    (∀ b t, .fetch b t ∈ xs → b = a ∨ b < a ∧ .release b t ∈ xs) ∧
      fetched a xs <+: s.ready a ++ released a xs := by
  refine ⟨fun b t hf => ?_, ⟨s'.ready a, (run_fifo h a).symm⟩⟩
  have ha : a ∈ s.active := by
    cases henter with
    | enter => exact List.mem_cons_self
  refine (eq_or_lt_of_le (run_fetch_le h (hs₀.step henter) ha hno hf)).imp_right fun hlt => ?_
  have hnone := henter.enter_ready hlt
  exact ⟨hlt, (run_released_since h hf).resolve_left (by simp [hnone])⟩

end Preemptive

/-
# A finite set that gives its least element first

The abstract priority queue: a finite set of a linear order, from which the
least element is taken. Taking the least again and again gives the elements in
increasing order, each once.

Key definitions: `LeastFirst.least`, `LeastFirst.popLeast`,
`LeastFirst.leasts`.
Key theorems: `LeastFirst.least_eq_some`, `LeastFirst.sort_popLeast`,
`LeastFirst.leasts_eq`.
-/
import Mathlib.Data.Finset.Sort

namespace LeastFirst

variable {α : Type*} [LinearOrder α]

def least (s : Finset α) : Option α := if h : s.Nonempty then some (s.min' h) else none

/-- The set without its least element. -/
def popLeast (s : Finset α) : Finset α := if h : s.Nonempty then s.erase (s.min' h) else s

/-- What `n` takes give; `none` where nothing is left. -/
def leasts : ℕ → Finset α → List (Option α)
  | 0, _ => []
  | n + 1, s => least s :: leasts n (popLeast s)

theorem least_eq_none {s : Finset α} : least s = none ↔ s = ∅ := by
  unfold least
  by_cases h : s.Nonempty
  · simp [h, h.ne_empty]
  · simp [Finset.not_nonempty_iff_eq_empty.mp h]

theorem least_eq_some {s : Finset α} {a : α} :
    least s = some a ↔ a ∈ s ∧ ∀ b ∈ s, a ≤ b := by
  unfold least
  by_cases h : s.Nonempty
  · rw [dif_pos h, Option.some.injEq]
    constructor
    · rintro rfl
      exact ⟨s.min'_mem h, fun b hb => s.min'_le b hb⟩
    · rintro ⟨ha, hle⟩
      exact le_antisymm (s.min'_le a ha) (hle _ (s.min'_mem h))
  · rw [dif_neg h, Finset.not_nonempty_iff_eq_empty.mp h]
    simp

theorem popLeast_of_none {s : Finset α} (h : least s = none) : popLeast s = s := by
  unfold popLeast
  rw [dif_neg]
  rw [least_eq_none.mp h]
  simp

theorem popLeast_of_some {s : Finset α} {a : α} (h : least s = some a) : popLeast s = s.erase a := by
  unfold least at h
  unfold popLeast
  by_cases hs : s.Nonempty
  · rw [dif_pos hs, Option.some.injEq] at h
    rw [dif_pos hs, h]
  · rw [dif_neg hs] at h
    cases h

/-- The least element comes first, and the rest is what is left. -/
theorem sort_popLeast {s : Finset α} {a : α} (h : least s = some a) :
    s.sort = a :: (popLeast s).sort := by
  obtain ⟨ha, hle⟩ := least_eq_some.mp h
  have hrest : ∀ b ∈ s.erase a, a ≤ b := fun b hb => hle b (Finset.mem_of_mem_erase hb)
  rw [popLeast_of_some h, ← Finset.sort_insert _ hrest (Finset.notMem_erase a s),
    Finset.insert_erase ha]

/-- **The elements come in increasing order**, each once, and then nothing. -/
theorem leasts_eq : ∀ (n : ℕ) (s : Finset α),
    leasts n s = (s.sort.take n).map some ++ List.replicate (n - s.card) none
  | 0, _ => by simp [leasts]
  | n + 1, s => by
    unfold leasts
    rw [leasts_eq n]
    cases h : least s with
    | none =>
      rw [popLeast_of_none h, least_eq_none.mp h]
      simp [List.replicate_succ]
    | some a =>
      have hcard : s.card = (popLeast s).card + 1 := by
        rw [← Finset.length_sort (· ≤ ·), sort_popLeast h, List.length_cons, Finset.length_sort]
      rw [sort_popLeast h, hcard, List.take_succ_cons, List.map_cons, List.cons_append,
        Nat.add_sub_add_right]

/-- The set after `n` takes. -/
theorem card_popLeast (s : Finset α) : (popLeast s).card = s.card - 1 := by
  cases h : least s with
  | none =>
    rw [popLeast_of_none h, least_eq_none.mp h]
    simp
  | some a =>
    rw [popLeast_of_some h, Finset.card_erase_of_mem (least_eq_some.mp h).1]

theorem card_popLeast_iterate : ∀ (n : ℕ) (s : Finset α), (popLeast^[n] s).card = s.card - n
  | 0, _ => rfl
  | n + 1, s => by
    rw [Function.iterate_succ_apply, card_popLeast_iterate n, card_popLeast]
    omega

end LeastFirst

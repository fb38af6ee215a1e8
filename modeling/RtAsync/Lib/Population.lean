/-
# How many a partial map holds

The number of keys of a partial map whose value meets a condition, and what it
becomes where one key changes.

Key definitions: `population`.
Key theorems: `population_update_le_add_one`, `population_update_add_one`,
`population_mono`, `length_le_population`.
-/
import Mathlib.Data.Set.Card
import Mathlib.Logic.Function.Basic

namespace Population

open Function (update update_self update_of_ne)

variable {α β : Type*} {p : β → Prop} {f g : α → Option β}

/-- The keys whose value meets `p`. -/
noncomputable def population (p : β → Prop) (f : α → Option β) : ℕ∞ :=
  {a | ∃ b, f a = some b ∧ p b}.encard

theorem population_none : population p (fun _ : α => none) = 0 := by
  unfold population
  simp

theorem population_mono (h : ∀ a b, f a = some b → p b → ∃ b', g a = some b' ∧ p b') :
    population p f ≤ population p g :=
  Set.encard_le_encard fun a ⟨b, hf, hp⟩ => h a b hf hp

/-- Distinct keys whose values meet `p`. -/
theorem length_le_population {l : List α} (hnd : l.Nodup)
    (hl : ∀ a ∈ l, ∃ b, f a = some b ∧ p b) : (l.length : ℕ∞) ≤ population p f := by
  classical
  have hcard : (l.toFinset : Set α).encard = l.length := by
    rw [Set.encard_coe_eq_coe_finsetCard, List.toFinset_card_of_nodup hnd]
  rw [← hcard]
  exact Set.encard_le_encard fun a ha => hl a (List.mem_toFinset.mp ha)

/-- Keys below `n` only. -/
theorem population_le_of_lt {f : ℕ → Option β} {n : ℕ} (h : ∀ a b, f a = some b → a < n) :
    population p f ≤ n := by
  have hcard : ((Finset.range n : Finset ℕ) : Set ℕ).encard = n := by
    rw [Set.encard_coe_eq_coe_finsetCard, Finset.card_range]
  rw [← hcard]
  refine Set.encard_le_encard fun a ⟨b, hf, _⟩ => ?_
  simpa using h a b hf

variable [DecidableEq α] {a : α}

theorem population_update_le_add_one (o : Option β) :
    population p (update f a o) ≤ population p f + 1 := by
  have hsub : {c | ∃ b, update f a o c = some b ∧ p b} ⊆ insert a {c | ∃ b, f c = some b ∧ p b} := by
    rintro c ⟨b, hc, hp⟩
    by_cases hca : c = a
    · exact Or.inl hca
    · rw [update_of_ne hca] at hc
      exact Or.inr ⟨b, hc, hp⟩
  exact (Set.encard_le_encard hsub).trans (Set.encard_insert_le _ a)

/-- The key did not count more before. -/
theorem population_update_le {o : Option β}
    (h : ∀ b', o = some b' → p b' → ∃ b, f a = some b ∧ p b) :
    population p (update f a o) ≤ population p f := by
  refine population_mono fun c b' hc hp => ?_
  by_cases hca : c = a
  · subst hca
    rw [update_self] at hc
    exact h b' hc hp
  · rw [update_of_ne hca] at hc
    exact ⟨b', hc, hp⟩

/-- The key counted before, and does not any more. -/
theorem population_update_add_one {b : β} {o : Option β} (hf : f a = some b) (hp : p b)
    (ho : ∀ b', o = some b' → ¬p b') : population p (update f a o) + 1 = population p f := by
  have hset : {c | ∃ b, update f a o c = some b ∧ p b} = {c | ∃ b, f c = some b ∧ p b} \ {a} := by
    ext c
    by_cases hca : c = a
    · subst hca
      simpa using ho
    · simp [hca]
  unfold population
  rw [hset]
  exact Set.encard_sdiff_singleton_add_one ⟨b, hf, hp⟩

end Population

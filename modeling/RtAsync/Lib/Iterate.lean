/-
# Iterating a partial step

`after next n s` is the state `n` steps after `s`, where every one of them can
be made. If an invariant lets a step be made in every state that is not final,
and the step keeps it and lowers a well-founded measure, a final state is
reached. What holds early in a run and not at its end is given up at some step
in between.

Key definitions: `after`, `Lower`.
Key theorems: `after_invariant`, `wellFounded_lower`, `exists_final`,
`exists_between`.
-/
import Mathlib.Data.Nat.Notation
import Mathlib.Data.Prod.Basic
import Mathlib.Order.RelClasses

namespace Iterate

variable {σ : Type*} {next : σ → Option σ}

/-- The state after `n` steps. -/
def after (next : σ → Option σ) : ℕ → σ → Option σ
  | 0, s => some s
  | n + 1, s => (next s).bind (after next n)

theorem after_succ_eq_some {n : ℕ} {s s' : σ} (h : after next (n + 1) s = some s') :
    ∃ t, next s = some t ∧ after next n t = some s' := Option.bind_eq_some_iff.mp h

theorem after_add (m n : ℕ) (s : σ) :
    after next (m + n) s = (after next m s).bind (after next n) := by
  induction m generalizing s with
  | zero => rw [Nat.zero_add]; rfl
  | succ m ih =>
    rw [Nat.succ_add, after, after, Option.bind_assoc]
    exact congrArg _ (funext ih)

/-- The rest of a run, from a state in it. -/
theorem after_sub {m n : ℕ} {s s' s'' : σ} (hmn : m ≤ n) (hm : after next m s = some s')
    (hn : after next n s = some s'') : after next (n - m) s' = some s'' := by
  have hsplit : after next (m + (n - m)) s = _ := after_add m (n - m) s
  rw [Nat.add_sub_cancel' hmn, hn, hm] at hsplit
  exact hsplit.symm

/-- A run goes on from each state before its last. -/
theorem next_of_lt {m n : ℕ} {s s' s'' : σ} (hmn : m < n) (hm : after next m s = some s')
    (hn : after next n s = some s'') : ∃ t, next s' = some t := by
  have hrest := after_sub (Nat.le_of_lt hmn) hm hn
  rw [← Nat.succ_pred_eq_of_pos (Nat.sub_pos_of_lt hmn)] at hrest
  obtain ⟨t, ht, -⟩ := after_succ_eq_some hrest
  exact ⟨t, ht⟩

theorem after_invariant {I : σ → Prop} (hI : ∀ s s', I s → next s = some s' → I s') {n : ℕ}
    {s s' : σ} (hs : I s) (h : after next n s = some s') : I s' := by
  induction n generalizing s with
  | zero =>
    obtain rfl := Option.some.inj h
    exact hs
  | succ n ih =>
    obtain ⟨t, ht, h⟩ := after_succ_eq_some h
    exact ih (hI s t hs ht) h

/-- The first number is lower, or it is not higher and the second one is
lower. -/
def Lower (p q : ℕ × ℕ) : Prop := p.1 < q.1 ∨ p.1 ≤ q.1 ∧ p.2 < q.2

theorem wellFounded_lower : WellFounded Lower := by
  refine Subrelation.wf (fun {p q} h => ?_)
    (WellFounded.prod_lex (wellFounded_lt (α := ℕ)) (wellFounded_lt (α := ℕ)))
  rw [Prod.lex_def]
  unfold Lower at h
  omega

/-- A run that always goes on to something smaller ends. -/
theorem exists_final {β : Type*} {r : β → β → Prop} (hwf : WellFounded r) {I : σ → β → Prop}
    {final : σ → Prop} (hstep : ∀ s b, I s b → ¬final s → ∃ s' b', next s = some s' ∧ I s' b' ∧ r b' b)
    {s : σ} {b : β} (h : I s b) : ∃ n s' b', after next n s = some s' ∧ I s' b' ∧ final s' := by
  induction b using hwf.induction generalizing s with
  | _ b ih =>
    by_cases hf : final s
    · exact ⟨0, s, b, rfl, h, hf⟩
    · obtain ⟨s', b', hs, h', hlt⟩ := hstep s b h hf
      obtain ⟨n, t, c, hn, hI, hfin⟩ := ih b' hlt h'
      exact ⟨n + 1, t, c, by rw [after, hs]; exact hn, hI, hfin⟩

/-- If only a step from `Q` gives up `P`, a run from `P` to its opposite comes
through `Q`. -/
theorem exists_between {P Q : σ → Prop} (hkeep : ∀ s s', next s = some s' → P s → P s' ∨ Q s')
    {n : ℕ} {s s' : σ} (h : after next n s = some s') (hs : P s) (hs' : ¬P s') :
    ∃ i t, i ≤ n ∧ after next i s = some t ∧ Q t := by
  induction n generalizing s with
  | zero =>
    obtain rfl := Option.some.inj h
    exact absurd hs hs'
  | succ n ih =>
    obtain ⟨t, ht, h⟩ := after_succ_eq_some h
    rcases hkeep s t ht hs with hP | hQ
    · obtain ⟨i, u, hi, hu, hQ⟩ := ih h hP
      exact ⟨i + 1, u, Nat.succ_le_succ hi, by rw [after, ht]; exact hu, hQ⟩
    · exact ⟨1, t, Nat.succ_le_succ (Nat.zero_le n), by rw [after, ht]; rfl, hQ⟩

end Iterate

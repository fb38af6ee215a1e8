/-
# Refinement of a labelled system

`Run R s ls s'` is a run of the relation `R`, with the labels of its steps. A
partial step function refines `R` along an abstraction of its states where
each of its steps is one step of `R`, under the label that `label` reads off
it, or is not seen. Every run of the step function is then a run of `R`, with
the labels that are seen.

Key definitions: `Run`, `Refines`, `trace`.
Key theorems: `Refines.run`, `Refines.invariant`.
-/
import RtAsync.Lib.Transition

namespace Transition

variable {σ ε α ω : Type*}

/-- A run of a labelled relation. -/
inductive Run (R : α → ω → α → Prop) : α → List ω → α → Prop
  | nil (s : α) : Run R s [] s
  | cons {s s' s'' : α} {l : ω} {ls : List ω} :
      R s l s' → Run R s' ls s'' → Run R s (l :: ls) s''

/-- A run of a function is its fold. -/
theorem Run.foldl {f : α → ω → α} {s s' : α} {ls : List ω}
    (h : Run (fun s l s' => s' = f s l) s ls s') : s' = ls.foldl f s := by
  induction h with
  | nil => rfl
  | cons hl _ ih => rw [List.foldl_cons, ← hl, ih]

/-- What is seen of the run `es` from `s`. -/
def trace (step : σ → ε → Option σ) (label : σ → ε → Option ω) : σ → List ε → List ω
  | _, [] => []
  | s, e :: es =>
    (label s e).toList ++ ((step s e).elim [] fun s' => trace step label s' es)

/-- Where `I` holds, a step is a step of `R` or is not seen. -/
structure Refines (step : σ → ε → Option σ) (I : σ → Prop) (abs : σ → α)
    (label : σ → ε → Option ω) (R : α → ω → α → Prop) : Prop where
  keep : ∀ s e s', I s → step s e = some s' → I s'
  seen : ∀ s e s' l, I s → step s e = some s' → label s e = some l → R (abs s) l (abs s')
  hidden : ∀ s e s', I s → step s e = some s' → label s e = none → abs s' = abs s

variable {step : σ → ε → Option σ} {I : σ → Prop} {abs : σ → α} {label : σ → ε → Option ω}
  {R : α → ω → α → Prop}

/-- A run refines a run. -/
theorem Refines.run (h : Refines step I abs label R) : ∀ {es : List ε} {s s' : σ}, I s →
    exec step s es = some s' → Run R (abs s) (trace step label s es) (abs s')
  | [], s, s', _, he => by
    simp only [exec, Option.some.injEq] at he
    rw [he]
    exact .nil _
  | e :: es, s, s', hs, he => by
    obtain ⟨t, ht, he⟩ := Option.bind_eq_some_iff.mp he
    have hrest := h.run (h.keep s e t hs ht) he
    rw [trace, ht, Option.elim_some]
    cases hl : label s e with
    | none =>
      rw [h.hidden s e t hs ht hl] at hrest
      exact hrest
    | some l => exact .cons (h.seen s e t l hs ht hl) hrest

/-- What the steps of the relation keep holds in every state reached. -/
theorem Refines.invariant (h : Refines step I abs label R) {J : α → Prop}
    (hJ : ∀ a l a', J a → R a l a' → J a') {s s' : σ} (hr : Reach step s s') (hs : I s)
    (hj : J (abs s)) : J (abs s') := by
  refine (hr.invariant (I := fun s => I s ∧ J (abs s)) (fun t e t' ⟨ht, hjt⟩ hstep => ?_) ⟨hs, hj⟩).2
  refine ⟨h.keep t e t' ht hstep, ?_⟩
  cases hl : label t e with
  | none =>
    rw [h.hidden t e t' ht hstep hl]
    exact hjt
  | some l => exact hJ _ l _ hjt (h.seen t e t' l ht hstep hl)

end Transition

/-
# Amortised work

The events of a system are inputs and work. A potential that every piece of
work lowers, and that an input raises by less than `c`, bounds the length of a
run: by `c` for each of its inputs, and by the potential at its start where it
has none. If some work can be done in every state that is not at rest, the
system comes to rest.

Key definitions: `Pays`.
Key theorems: `Pays.length_le`, `Pays.work_le`, `Pays.reaches_rest`.
-/
import RtAsync.Lib.Transition

namespace Transition

variable {σ ε : Type*} {step : σ → ε → Option σ}

/-- Where `I` holds, `Φ` pays for the work, and an input pays less than `c` in
to it. -/
structure Pays (step : σ → ε → Option σ) (I : σ → Prop) (input : ε → Bool) (Φ : σ → ℕ) (c : ℕ) :
    Prop where
  keep : ∀ s e s', I s → step s e = some s' → I s'
  work : ∀ s e s', I s → step s e = some s' → input e = false → Φ s' < Φ s
  paid : ∀ s e s', I s → step s e = some s' → input e = true → Φ s' < Φ s + c

namespace Pays

variable {I : σ → Prop} {input : ε → Bool} {Φ : σ → ℕ} {c : ℕ}

/-- A run, and what is left of the potential at its end. -/
theorem length_le (h : Pays step I input Φ c) : ∀ {es : List ε} {s s' : σ}, I s →
    exec step s es = some s' → es.length + Φ s' ≤ Φ s + c * es.countP input
  | [], s, s', _, he => by
    simp only [exec, Option.some.injEq] at he
    simp [he]
  | e :: es, s, s', hs, he => by
    obtain ⟨t, ht, he⟩ := Option.bind_eq_some_iff.mp he
    have hrest := h.length_le (h.keep s e t hs ht) he
    rw [List.length_cons, List.countP_cons]
    cases hin : input e with
    | false =>
      have hlt := h.work s e t hs ht hin
      simp only [Bool.false_eq_true, ↓reduceIte, Nat.add_zero]
      omega
    | true =>
      have hlt := h.paid s e t hs ht hin
      simp only [↓reduceIte, Nat.mul_add, Nat.mul_one]
      omega

/-- A run without inputs. -/
theorem work_le (h : Pays step I input Φ c) {es : List ε} {s s' : σ} (hs : I s)
    (hwork : ∀ e ∈ es, input e = false) (he : exec step s es = some s') :
    es.length + Φ s' ≤ Φ s := by
  have hcount : es.countP input = 0 :=
    List.countP_eq_zero.mpr fun e hmem => by simp [hwork e hmem]
  have hlen := h.length_le hs he
  rw [hcount] at hlen
  simpa using hlen

/-- Left alone, the system comes to rest. -/
theorem reaches_rest (h : Pays step I input Φ c) {rest : σ → Prop}
    (hgo : ∀ s, I s → ¬rest s → ∃ e s', input e = false ∧ step s e = some s') {s : σ} (hs : I s) :
    ∃ es s', (∀ e ∈ es, input e = false) ∧ exec step s es = some s' ∧ rest s' := by
  induction hn : Φ s using Nat.strongRecOn generalizing s with
  | ind n ih =>
    by_cases hr : rest s
    · exact ⟨[], s, List.forall_mem_nil _, rfl, hr⟩
    · obtain ⟨e, t, hin, ht⟩ := hgo s hs hr
      have hlt := h.work s e t hs ht hin
      obtain ⟨es, s', hes, hexec, hrest⟩ := ih (Φ t) (hn ▸ hlt) (h.keep s e t hs ht) rfl
      refine ⟨e :: es, s', fun a ha => ?_, by rw [exec_cons, ht]; exact hexec, hrest⟩
      rcases List.mem_cons.mp ha with rfl | ha
      · exact hin
      · exact hes a ha

end Pays

end Transition

/-
# Partial step functions and their runs

A system is a step function `step : σ → ε → Option σ`: the state after the
event `e`, or `none` where `e` cannot happen (a guard, a panic). A run is a
list of events. `Steps` relates the ends of a run all of whose steps meet a
condition; `Always` says that a property holds in every state a run visits,
`Along` that every step of it meets a condition.

Key definitions: `Steps`, `Reach`, `Always`, `Along`, `Meets`.
Key theorems: `Steps.invariant`, `Reach.invariant`, `always_of_along`,
`along_of_along`, `always_iff_along`, `along_iff_of_invariant`, `along_congr`,
`exists_step`.
-/
import Mathlib.Logic.Basic
import Mathlib.Data.List.Basic
import Mathlib.Data.Option.Basic

namespace Transition

variable {σ ε : Type*}

/-- `s'` is reached from `s` by steps that all meet `ok`. -/
inductive Steps (step : σ → ε → Option σ) (ok : σ → ε → Prop) : σ → σ → Prop
  | refl (s : σ) : Steps step ok s s
  | tail {s s' s'' : σ} {e : ε} :
      Steps step ok s s' → ok s' e → step s' e = some s'' → Steps step ok s s''

/-- `s'` is reached from `s`, by any steps. -/
abbrev Reach (step : σ → ε → Option σ) : σ → σ → Prop := Steps step fun _ _ => True

/-- `P` holds in every state that the run `es` from `s` visits. The run ends
at the first event that cannot happen. -/
def Always (step : σ → ε → Option σ) (P : σ → Prop) : σ → List ε → Prop
  | s, [] => P s
  | s, e :: es => P s ∧ ∀ s', step s e = some s' → Always step P s' es

/-- Every step of the run `es` from `s` meets `ok`, which reads the state
before the step. -/
def Along (step : σ → ε → Option σ) (ok : σ → ε → Prop) : σ → List ε → Prop
  | _, [] => True
  | s, e :: es => ∀ s', step s e = some s' → ok s e ∧ Along step ok s' es

variable {step : σ → ε → Option σ} {ok : σ → ε → Prop}

instance decidableAlong [∀ s e, Decidable (ok s e)] :
    ∀ (s : σ) (es : List ε), Decidable (Along step ok s es)
  | _, [] => isTrue trivial
  | s, e :: es =>
    match hs : step s e with
    | none => isTrue fun s' hs' => by simp [hs] at hs'
    | some s' =>
      have := decidableAlong s' es
      decidable_of_iff (ok s e ∧ Along step ok s' es) (by simp [Along, hs])

instance decidableAlways {P : σ → Prop} [DecidablePred P] :
    ∀ (s : σ) (es : List ε), Decidable (Always step P s es)
  | s, [] => decidable_of_iff (P s) Iff.rfl
  | s, e :: es =>
    match hs : step s e with
    | none => decidable_of_iff (P s) (by simp [Always, hs])
    | some s' =>
      have : Decidable (Always step P s' es) := decidableAlways s' es
      decidable_of_iff (P s ∧ Always step P s' es) (by simp [Always, hs])

namespace Steps

theorem head {s s' s'' : σ} {e : ε} (hok : ok s e) (hs : step s e = some s')
    (h : Steps step ok s' s'') : Steps step ok s s'' := by
  induction h with
  | refl => exact tail (refl s) hok hs
  | tail _ hok' hs' ih => exact tail ih hok' hs'

theorem trans {s s' s'' : σ} (h : Steps step ok s s') (h' : Steps step ok s' s'') :
    Steps step ok s s'' := by
  induction h' with
  | refl => exact h
  | tail _ hok hs ih => exact tail ih hok hs

theorem mono {ok' : σ → ε → Prop} (hle : ∀ s e, ok s e → ok' s e) {s s' : σ}
    (h : Steps step ok s s') : Steps step ok' s s' := by
  induction h with
  | refl => exact refl _
  | tail _ hok hs ih => exact tail ih (hle _ _ hok) hs

/-- What every step that meets `ok` preserves holds at the end of the run. -/
theorem invariant {I : σ → Prop} (hI : ∀ s e s', I s → ok s e → step s e = some s' → I s')
    {s s' : σ} (h : Steps step ok s s') (hs : I s) : I s' := by
  induction h with
  | refl => exact hs
  | tail _ hok hstep ih => exact hI _ _ _ ih hok hstep

end Steps

theorem Reach.invariant {I : σ → Prop} (hI : ∀ s e s', I s → step s e = some s' → I s')
    {s s' : σ} (h : Reach step s s') (hs : I s) : I s' :=
  Steps.invariant (fun s e s' h _ => hI s e s' h) h hs

/-- The events of a run, when every one of them can happen. -/
def exec (step : σ → ε → Option σ) : σ → List ε → Option σ
  | s, [] => some s
  | s, e :: es => (step s e).bind fun s' => exec step s' es

theorem exec_cons (s : σ) (e : ε) (es : List ε) :
    exec step s (e :: es) = (step s e).bind fun s' => exec step s' es := rfl

theorem exec_append : ∀ (s : σ) (es es' : List ε),
    exec step s (es ++ es') = (exec step s es).bind fun s' => exec step s' es'
  | _, [], _ => rfl
  | s, e :: es, es' => by
    rw [List.cons_append, exec_cons, exec_cons, Option.bind_assoc]
    exact congrArg _ (funext fun s' => exec_append s' es es')

theorem reach_of_exec : ∀ (es : List ε) {s s' : σ}, exec step s es = some s' → Reach step s s'
  | [], s, s', h => by
    simp only [exec, Option.some.injEq] at h
    exact h ▸ Steps.refl s
  | e :: es, s, s', h => by
    obtain ⟨t, ht, h⟩ := Option.bind_eq_some_iff.mp h
    exact Steps.head trivial ht (reach_of_exec es h)

theorem Always.start {P : σ → Prop} {s : σ} : ∀ {es : List ε}, Always step P s es → P s
  | [], h => h
  | _ :: _, h => h.1

/-- A property that holds always holds where the run ends. -/
theorem Always.of_exec {P : σ → Prop} : ∀ {es : List ε} {s s' : σ}, Always step P s es →
    exec step s es = some s' → P s'
  | [], s, s', h, he => by
    simp only [exec, Option.some.injEq] at he
    exact he ▸ h
  | e :: es, s, s', h, he => by
    obtain ⟨t, ht, he⟩ := Option.bind_eq_some_iff.mp he
    exact (h.2 t ht).of_exec he

/-- What holds always holds at the beginning of the run. -/
theorem Always.left {P : σ → Prop} : ∀ {es es' : List ε} {s : σ}, Always step P s (es ++ es') →
    Always step P s es
  | [], _, _, h => h.start
  | _ :: _, _, _, h => ⟨h.1, fun s' hs => (h.2 s' hs).left⟩

theorem along_true : ∀ (s : σ) (es : List ε), Along step (fun _ _ => True) s es
  | _, [] => trivial
  | _, _ :: es => fun s' _ => ⟨trivial, along_true s' es⟩

theorem along_of_forall {es : List ε} (h : ∀ e ∈ es, ∀ s, ok s e) (s : σ) : Along step ok s es := by
  induction es generalizing s with
  | nil => trivial
  | cons e es ih =>
    exact fun s' _ => ⟨h e List.mem_cons_self s, ih (fun e he => h e (List.mem_cons_of_mem _ he)) s'⟩

theorem Along.append : ∀ {es es' : List ε} {s s' : σ}, Along step ok s es →
    exec step s es = some s' → Along step ok s' es' → Along step ok s (es ++ es')
  | [], es', s, s', _, he, h' => by
    simp only [exec, Option.some.injEq] at he
    exact he ▸ h'
  | e :: es, es', s, s', h, he, h' => by
    obtain ⟨t, ht, he⟩ := Option.bind_eq_some_iff.mp he
    intro t' ht'
    obtain rfl : t = t' := Option.some.inj (ht.symm.trans ht')
    exact ⟨(h t ht).1, (h t ht).2.append he h'⟩

/-- A step inside the run meets the condition. -/
theorem Along.of_exec : ∀ {es es' : List ε} {e : ε} {s s₁ s₂ : σ},
    Along step ok s (es ++ e :: es') → exec step s es = some s₁ → step s₁ e = some s₂ → ok s₁ e
  | [], es', e, s, s₁, s₂, h, he, hs => by
    simp only [exec, Option.some.injEq] at he
    subst he
    exact (h s₂ hs).1
  | e' :: es, es', e, s, s₁, s₂, h, he, hs => by
    obtain ⟨t, ht, he⟩ := Option.bind_eq_some_iff.mp he
    exact Along.of_exec (h t ht).2 he hs

theorem Along.steps : ∀ {es : List ε} {s s' : σ}, Along step ok s es → exec step s es = some s' →
    Steps step ok s s'
  | [], s, s', _, he => by
    simp only [exec, Option.some.injEq] at he
    exact he ▸ Steps.refl s
  | e :: es, s, s', h, he => by
    obtain ⟨t, ht, he⟩ := Option.bind_eq_some_iff.mp he
    exact Steps.head (h t ht).1 ht ((h t ht).2.steps he)

/-- Conditions that agree where an invariant holds that both preserve agree
along every run. -/
theorem along_iff_of_invariant {I : σ → Prop} {ok' : σ → ε → Prop}
    (heq : ∀ s e, I s → (ok s e ↔ ok' s e))
    (hI : ∀ s e s', I s → ok s e → step s e = some s' → I s') : ∀ (es : List ε) {s : σ},
    I s → (Along step ok s es ↔ Along step ok' s es)
  | [], _, _ => Iff.rfl
  | e :: es, s, hs => by
    refine forall_congr' fun s' => forall_congr' fun hstep => ?_
    rw [← heq s e hs]
    exact and_congr_right fun hok => along_iff_of_invariant heq hI es (hI s e s' hs hok hstep)

/-- Conditions that agree in every reachable state agree along every run. -/
theorem along_congr {ok' : σ → ε → Prop} {s₀ : σ}
    (heq : ∀ s e, Reach step s₀ s → (ok s e ↔ ok' s e)) (es : List ε) {s : σ}
    (hr : Reach step s₀ s) : Along step ok s es ↔ Along step ok' s es :=
  along_iff_of_invariant heq (fun _ _ _ hr _ hs => hr.tail trivial hs) es hr

theorem along_and {ok' : σ → ε → Prop} : ∀ (s : σ) (es : List ε),
    Along step (fun s e => ok s e ∧ ok' s e) s es ↔ Along step ok s es ∧ Along step ok' s es
  | _, [] => by simp [Along]
  | s, e :: es => by
    constructor
    · intro h
      refine ⟨fun s' hs => ?_, fun s' hs => ?_⟩
      · exact ⟨(h s' hs).1.1, ((along_and s' es).mp (h s' hs).2).1⟩
      · exact ⟨(h s' hs).1.2, ((along_and s' es).mp (h s' hs).2).2⟩
    · intro h s' hs
      obtain ⟨hok, hes⟩ := h.1 s' hs
      obtain ⟨hok', hes'⟩ := h.2 s' hs
      exact ⟨⟨hok, hok'⟩, (along_and s' es).mpr ⟨hes, hes'⟩⟩

/-- Some step of the run `es` from `s` meets `ok`. -/
def Meets (step : σ → ε → Option σ) (ok : σ → ε → Prop) (s : σ) (es : List ε) : Prop :=
  ∃ es₁ e es₂ t t', es = es₁ ++ e :: es₂ ∧ exec step s es₁ = some t ∧ step t e = some t' ∧ ok t e

theorem Meets.mono {ok' : σ → ε → Prop} (hle : ∀ s e, ok s e → ok' s e) {es : List ε} {s : σ}
    (h : Meets step ok s es) : Meets step ok' s es := by
  obtain ⟨es₁, e, es₂, t, t', rfl, ht, hs, hok⟩ := h
  exact ⟨es₁, e, es₂, t, t', rfl, ht, hs, hle t e hok⟩

theorem Meets.append_right {es : List ε} {s : σ} (h : Meets step ok s es) (es' : List ε) :
    Meets step ok s (es ++ es') := by
  obtain ⟨es₁, e, es₂, t, t', rfl, ht, hs, hok⟩ := h
  exact ⟨es₁, e, es₂ ++ es', t, t', by simp, ht, hs, hok⟩

theorem Meets.append_left {es es' : List ε} {s s' : σ} (he : exec step s es = some s')
    (h : Meets step ok s' es') : Meets step ok s (es ++ es') := by
  obtain ⟨es₁, e, es₂, t, t', rfl, ht, hs, hok⟩ := h
  refine ⟨es ++ es₁, e, es₂, t, t', by simp, ?_, hs, hok⟩
  rw [exec_append, he, Option.bind_some, ht]

/-- If only a step that meets `ok` gives up `P`, a run from `P` to its opposite
makes such a step, and goes on from there. -/
theorem exists_step (P : σ → Prop) (ok : σ → ε → Prop)
    (hkeep : ∀ s e s', step s e = some s' → P s → P s' ∨ ok s e) :
    ∀ {es : List ε} {s s' : σ}, exec step s es = some s' → P s → ¬P s' →
      ∃ es₁ e es₂ t t', es = es₁ ++ e :: es₂ ∧ exec step s es₁ = some t ∧
        step t e = some t' ∧ ok t e ∧ exec step t' es₂ = some s'
  | [], s, s', he, hs, hs' => by
    simp only [exec, Option.some.injEq] at he
    exact absurd (he ▸ hs) hs'
  | e :: es, s, s', he, hs, hs' => by
    obtain ⟨t, ht, he⟩ := Option.bind_eq_some_iff.mp he
    rcases hkeep s e t ht hs with hP | hok
    · obtain ⟨es₁, e', es₂, u, u', rfl, hu, hstep, hok, he⟩ := exists_step P ok hkeep he hP hs'
      exact ⟨e :: es₁, e', es₂, u, u', rfl, by rw [exec_cons, ht]; exact hu, hstep, hok, he⟩
    · exact ⟨[], e, es, s, t, rfl, rfl, ht, hok, he⟩

/-- If only a step to `Q` gives up `P`, a run from `P` to its opposite comes
through `Q`. -/
theorem exec_between {P Q : σ → Prop} (hkeep : ∀ s e s', step s e = some s' → P s → P s' ∨ Q s')
    {es : List ε} {s s' : σ} (he : exec step s es = some s') (hs : P s) (hs' : ¬P s') :
    ∃ es₁ es₂ t, es = es₁ ++ es₂ ∧ exec step s es₁ = some t ∧ Q t := by
  have hQ : ∀ s e s', step s e = some s' → P s →
      P s' ∨ ∀ t, step s e = some t → Q t := fun s e s' hstep hP =>
    (hkeep s e s' hstep hP).imp_right fun hq t ht => Option.some.inj (hstep.symm.trans ht) ▸ hq
  obtain ⟨es₁, e, es₂, t, t', rfl, ht, hstep, hq, -⟩ := exists_step P _ hQ he hs hs'
  refine ⟨es₁ ++ [e], es₂, t', by simp, ?_, hq t' hstep⟩
  rw [exec_append, ht, Option.bind_some, exec_cons, hstep, Option.bind_some]
  rfl

/-- An invariant that every step meeting `ok` preserves holds along every run
whose steps all meet `ok`. -/
theorem always_of_along {I P : σ → Prop} (hP : ∀ s, I s → P s)
    (hI : ∀ s e s', I s → ok s e → step s e = some s' → I s') :
    ∀ {es : List ε} {s : σ}, I s → Along step ok s es → Always step P s es
  | [], s, hs, _ => hP s hs
  | _ :: _, s, hs, h =>
    ⟨hP s hs, fun s' hstep =>
      always_of_along hP hI (hI s _ s' hs (h s' hstep).1 hstep) (h s' hstep).2⟩

/-- Every step from the invariant meets `ok'`, so every step of a run whose
steps all meet `ok` does. -/
theorem along_of_along {I : σ → Prop} {ok' : σ → ε → Prop} (hok : ∀ s e, I s → ok' s e)
    (hI : ∀ s e s', I s → ok s e → step s e = some s' → I s') :
    ∀ {es : List ε} {s : σ}, I s → Along step ok s es → Along step ok' s es
  | [], _, _, _ => trivial
  | e :: _, s, hs, h => fun s' hstep =>
    ⟨hok s e hs, along_of_along hok hI (hI s e s' hs (h s' hstep).1 hstep) (h s' hstep).2⟩

/-- Where the invariant carries the property, and a step from the invariant to
the property meets `ok`, the property holds along a run exactly when every
step of the run meets `ok`. -/
theorem always_iff_along {I P : σ → Prop} (hP : ∀ s, I s → P s)
    (hI : ∀ s e s', I s → ok s e → step s e = some s' → I s')
    (hok : ∀ s e s', I s → step s e = some s' → P s' → ok s e) :
    ∀ {es : List ε} {s : σ}, I s → (Always step P s es ↔ Along step ok s es)
  | [], s, hs => ⟨fun _ => trivial, fun _ => hP s hs⟩
  | e :: es, s, hs => by
    constructor
    · intro h s' hstep
      have hoks : ok s e := hok s e s' hs hstep (h.2 s' hstep).start
      exact ⟨hoks, (always_iff_along hP hI hok (hI s e s' hs hoks hstep)).mp (h.2 s' hstep)⟩
    · exact always_of_along hP hI hs

end Transition

/-
# The history of a FIFO queue

What was pushed onto a queue, each push with the elements that stood in the
queue then, and what was taken out of it. For a queue that is pushed at its
back and taken from at its front, and on which nothing is pushed that it
holds already, what was taken is the beginning of what was pushed, and between
two takes of one element everything is taken that stood ahead of it when it
was pushed again.

Key definitions: `FifoLog`, `FifoLog.Of`.
Key theorems: `FifoLog.Of.push`, `FifoLog.Of.pop`, `FifoLog.Of.taken_prefix`,
`FifoLog.Of.between`.
-/
import Mathlib.Data.List.Infix
import Mathlib.Data.Nat.Notation

variable {α : Type*}

structure FifoLog (α : Type*) where
  pushed : List (α × List α)
  taken : List α

namespace FifoLog

def empty : FifoLog α := ⟨[], []⟩

/-- `a` is pushed where `q` stands in the queue. -/
def push (l : FifoLog α) (q : List α) (a : α) : FifoLog α :=
  { l with pushed := l.pushed ++ [(a, q)] }

def take (l : FifoLog α) (a : α) : FifoLog α := { l with taken := l.taken ++ [a] }

/-- What was pushed, in order. -/
def order (l : FifoLog α) : List α := l.pushed.map Prod.fst

/-- The log of a queue in which `q` stands now. -/
structure Of (l : FifoLog α) (q : List α) : Prop where
  order_eq : l.order = l.taken ++ q
  /-- What stood ahead of a push were the latest pushes before it. -/
  ahead : ∀ (i : ℕ) (a : α) (q' : List α), l.pushed[i]? = some (a, q') → q' <:+ l.order.take i
  fresh : ∀ (i : ℕ) (a : α) (q' : List α), l.pushed[i]? = some (a, q') → a ∉ q'

theorem order_push (l : FifoLog α) (q : List α) (a : α) :
    (l.push q a).order = l.order ++ [a] := by
  simp [order, push]

theorem length_order (l : FifoLog α) : l.order.length = l.pushed.length := by simp [order]

theorem empty_of : (empty : FifoLog α).Of [] where
  order_eq := rfl
  ahead i a q h := by simp [empty] at h
  fresh i a q h := by simp [empty] at h

namespace Of

variable {l : FifoLog α} {q : List α} {a : α}

theorem push (h : l.Of q) (ha : a ∉ q) : (l.push q a).Of (q ++ [a]) := by
  have hpushed : ∀ i b q', (l.push q a).pushed[i]? = some (b, q') →
      l.pushed[i]? = some (b, q') ∨ (i = l.pushed.length ∧ b = a ∧ q' = q) := by
    intro i b q' hi
    have hi : (l.pushed ++ [(a, q)])[i]? = some (b, q') := hi
    by_cases hlt : i < l.pushed.length
    · rw [List.getElem?_append_left hlt] at hi
      exact Or.inl hi
    · rw [List.getElem?_append_right (by omega)] at hi
      obtain ⟨hzero, hb⟩ := List.getElem?_eq_some_iff.mp hi
      have hsub : i - l.pushed.length = 0 := by simpa using hzero
      simp only [hsub, List.getElem_cons_zero, Prod.mk.injEq] at hb
      exact Or.inr ⟨by omega, hb.1.symm, hb.2.symm⟩
  refine ⟨?_, fun i b q' hi => ?_, fun i b q' hi => ?_⟩
  · rw [order_push, h.order_eq, List.append_assoc]
    rfl
  · rw [order_push]
    rcases hpushed i b q' hi with hi | ⟨rfl, rfl, rfl⟩
    · have hlt : i < l.pushed.length := (List.getElem?_eq_some_iff.mp hi).1
      rw [List.take_append_of_le_length (by rw [length_order]; omega)]
      exact h.ahead i b q' hi
    · rw [List.take_append_of_le_length (by rw [length_order]), ← length_order, List.take_length,
        h.order_eq]
      exact List.suffix_append _ _
  · rcases hpushed i b q' hi with hi | ⟨rfl, rfl, rfl⟩
    · exact h.fresh i b q' hi
    · exact ha

theorem pop (h : l.Of (a :: q)) : (l.take a).Of q where
  order_eq := by
    show l.order = l.taken ++ [a] ++ q
    rw [h.order_eq, List.append_assoc]
    rfl
  ahead := h.ahead
  fresh := h.fresh

theorem taken_prefix (h : l.Of q) : l.taken <+: l.order := by
  rw [h.order_eq]
  exact List.prefix_append _ _

/-- Between two takes of `a`, with none in between, what stood ahead of its
second push was taken. -/
theorem between (h : l.Of q) {xs ys zs : List α} (ht : l.taken = xs ++ a :: (ys ++ a :: zs))
    (ha : a ∉ ys) : ∃ q', l.pushed[xs.length + 1 + ys.length]? = some (a, q') ∧ q' <:+ ys := by
  have hord : l.order = (xs ++ [a] ++ ys) ++ a :: (zs ++ q) := by
    rw [h.order_eq, ht]
    simp
  have hlen : (xs ++ [a] ++ ys).length = xs.length + 1 + ys.length := by
    simp only [List.length_append, List.length_cons, List.length_nil]
  -- the second push of `a`
  have hget : l.order[xs.length + 1 + ys.length]? = some a := by
    rw [hord, ← hlen, List.getElem?_append_right (Nat.le_refl _), Nat.sub_self]
    rfl
  obtain ⟨⟨b, q'⟩, hq', hb⟩ : ∃ p, l.pushed[xs.length + 1 + ys.length]? = some p ∧ p.1 = a := by
    rw [FifoLog.order, List.getElem?_map] at hget
    exact Option.map_eq_some_iff.mp hget
  obtain rfl : b = a := hb
  refine ⟨q', hq', ?_⟩
  have hahead := h.ahead _ _ _ hq'
  rw [hord, ← hlen, List.take_left] at hahead
  rcases List.suffix_or_suffix_of_suffix hahead (List.suffix_append (xs ++ [b]) ys) with hs | hs
  · exact hs
  · -- `q'` would reach back over the first `b`
    obtain ⟨w, rfl⟩ := hs
    have hw : w <:+ xs ++ [b] := by
      obtain ⟨v, hv⟩ := hahead
      rw [← List.append_assoc] at hv
      exact ⟨v, List.append_cancel_right hv⟩
    rcases List.eq_nil_or_concat w with rfl | ⟨w', c, rfl⟩
    · exact List.suffix_refl _
    · obtain ⟨v, hv⟩ := hw
      rw [List.concat_eq_append, ← List.append_assoc] at hv
      have hc : c = b := (List.append_inj' hv rfl).2 |> List.cons.inj |>.1
      refine absurd ?_ (h.fresh _ _ _ hq')
      rw [hc]
      simp

end Of

end FifoLog

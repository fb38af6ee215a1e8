/-
# A forest in depth-first pre-order

Trees side by side. `Forest.visits` lists the nodes as a depth-first walk meets
them, a node before its children and those before its next sibling, each with
its level, with what its ancestors hand down to it and with what it hands down
to its children.

After a node, the walk goes on with a child of it or with a later sibling of it
or of one of its ancestors. `Forest.isChain_visits` turns this into a rule for
what a node hands down and what the next one is handed.

Key definitions: `Forest`, `Forest.preorder`, `Forest.visits`.
Key theorems: `Forest.map_visits`, `Forest.isChain_visits`.
-/
import Mathlib.Data.List.Chain
import Mathlib.Data.Nat.Notation

/-- The first tree, by its root and the children of that, and the other
trees. -/
inductive Forest (α : Type*)
  | nil
  | cons (a : α) (children siblings : Forest α)

namespace Forest

variable {α β : Type*}

/-- A node as the walk meets it. -/
structure Visit (α β : Type*) where
  level : ℕ
  node : α
  above : β
  below : β

/-- The nodes and their levels, where the roots are at `level`. -/
def preorder (level : ℕ) : Forest α → List (ℕ × α)
  | nil => []
  | cons a children siblings =>
    (level, a) :: (preorder (level + 1) children ++ preorder level siblings)

/-- The visits of the walk; a node `a` that is handed `b` hands down `down a b`. -/
def visits (down : α → β → β) (level : ℕ) (b : β) : Forest α → List (Visit α β)
  | nil => []
  | cons a children siblings =>
    ⟨level, a, b, down a b⟩ ::
      (visits down (level + 1) (down a b) children ++ visits down level b siblings)

theorem map_visits (down : α → β → β) (level : ℕ) (b : β) (t : Forest α) :
    (t.visits down level b).map (fun v => (v.level, v.node)) = t.preorder level := by
  induction t generalizing level b with
  | nil => rfl
  | cons a children siblings ihc ihs =>
    simp only [visits, preorder, List.map_cons, List.map_append, ihc, ihs]

/-- What a node hands down is made from what it is handed. -/
theorem below_eq {down : α → β → β} {level : ℕ} {b : β} {t : Forest α} {v : Visit α β}
    (h : v ∈ t.visits down level b) : v.below = down v.node v.above := by
  induction t generalizing level b with
  | nil => cases h
  | cons a children siblings ihc ihs =>
    rcases List.mem_cons.mp h with rfl | h
    · rfl
    · exact (List.mem_append.mp h).elim ihc ihs

/-- Let `Q x y` say that a node that is handed `y` may follow one that hands
down `x`. If it holds of a node and its children, and whoever may follow with
what a node hands down may follow with what it is handed, it holds of every two
nodes that the walk meets one after the other. The walk may come from `p` and
go on with `rest`. -/
theorem isChain_visits {down : α → β → β} {Q : β → β → Prop} (hchild : ∀ x, Q x x)
    (t : Forest α) {level : ℕ} {b : β}
    (hback : ∀ v ∈ t.visits down level b, ∀ x, Q x v.below → Q x v.above)
    {p : Visit α β} {rest : List (Visit α β)} (hp : Q p.below b)
    (hrest : ∀ q : Visit α β, Q q.below b →
      List.IsChain (fun p n => Q p.below n.above) (q :: rest)) :
    List.IsChain (fun p n => Q p.below n.above) (p :: (t.visits down level b ++ rest)) := by
  induction t generalizing level b p rest with
  | nil => exact hrest p hp
  | cons a children siblings ihc ihs =>
    have hmem : ∀ v, v ∈ children.visits down (level + 1) (down a b) ∨
        v ∈ siblings.visits down level b → ∀ x, Q x v.below → Q x v.above := fun v hv =>
      hback v (List.mem_cons_of_mem _ (List.mem_append.mpr hv))
    have hself := hback ⟨level, a, b, down a b⟩ List.mem_cons_self
    rw [visits, List.cons_append, List.append_assoc, List.isChain_cons_cons]
    refine ⟨hp, ihc (fun v hv => hmem v (Or.inl hv)) (hchild _) fun q hq => ?_⟩
    exact ihs (fun v hv => hmem v (Or.inr hv)) (hself _ hq) hrest

end Forest

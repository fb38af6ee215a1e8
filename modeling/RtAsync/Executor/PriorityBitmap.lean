/-
# The two-level priority bitmap

`PriorityBitmap` of `priority_bitmap.rs`: one word per group of 64 priorities
and a word of the groups that are not empty. An index out of range panics:
the operations return `none` there.

Key definitions: `PriorityBitmap`, `set`, `clear`, `highest`, `Mem`, `WF`.
Key theorems: `mem_set`, `mem_clear`, `set_wf`, `clear_wf`, `highest_eq_none`,
`highest_least`, `highest_of_mem`.
-/
import RtAsync.Lib.Word

namespace RtAsync

/-- `PriorityBitmap<NUM_GROUPS>`. -/
structure PriorityBitmap (G : ℕ) where
  groupMap : BitVec 64
  groupTable : Vector (BitVec 64) G

namespace PriorityBitmap

variable {G : ℕ}

def new (G : ℕ) : PriorityBitmap G := ⟨0#64, Vector.replicate G 0#64⟩

def set (bm : PriorityBitmap G) (prio : ℕ) : Option (PriorityBitmap G) :=
  let g := prio / 64
  let b := prio % 64
  if h : g < G then
    some ⟨bm.groupMap ||| (1#64 <<< g), bm.groupTable.set g (bm.groupTable[g] ||| (1#64 <<< b))⟩
  else none

def clear (bm : PriorityBitmap G) (prio : ℕ) : Option (PriorityBitmap G) :=
  let g := prio / 64
  let b := prio % 64
  if h : g < G then
    let w := bm.groupTable[g] &&& ~~~(1#64 <<< b)
    some ⟨if w = 0#64 then bm.groupMap &&& ~~~(1#64 <<< g) else bm.groupMap,
      bm.groupTable.set g w⟩
  else none

/-- The outer option is the index panic of `group_table[g]`. -/
def highest (bm : PriorityBitmap G) : Option (Option ℕ) :=
  if bm.groupMap = 0#64 then some none
  else
    let g := bm.groupMap.ctz.toNat
    if h : g < G then some (some (g * 64 + bm.groupTable[g].ctz.toNat)) else none

def isSet (bm : PriorityBitmap G) (prio : ℕ) : Option Bool :=
  if h : prio / 64 < G then some ((bm.groupTable[prio / 64]).getLsbD (prio % 64)) else none

def isEmpty (bm : PriorityBitmap G) : Bool := bm.groupMap = 0#64

def popHighest (bm : PriorityBitmap G) : Option (PriorityBitmap G × Option ℕ) :=
  bm.highest.bind fun highest => match highest with
    | none => some (bm, none)
    | some prio => (bm.clear prio).map fun bm' => (bm', some prio)

def clearAll (bm : PriorityBitmap G) : PriorityBitmap G :=
  { bm with groupMap := 0#64, groupTable := Vector.replicate G 0#64 }

/-- Priority `p` is in the set the bitmap stands for. -/
def Mem (bm : PriorityBitmap G) (p : ℕ) : Prop := bm.isSet p = some true

instance (bm : PriorityBitmap G) (p : ℕ) : Decidable (bm.Mem p) := by unfold Mem; infer_instance

/-- The two levels agree. -/
def WF (bm : PriorityBitmap G) : Prop :=
  ∀ g, bm.groupMap.getLsbD g = true ↔ ∃ h : g < G, bm.groupTable[g] ≠ 0#64

theorem mem_iff (bm : PriorityBitmap G) (p : ℕ) :
    bm.Mem p ↔ ∃ h : p / 64 < G, (bm.groupTable[p / 64]).getLsbD (p % 64) = true := by
  unfold Mem isSet
  split
  · rename_i h; simp [h]
  · rename_i h; simp [h]

theorem new_wf : (new G).WF := by
  intro g
  simp [new]

theorem not_mem_new (p : ℕ) : ¬ (new G).Mem p := by
  simp [mem_iff, new]

/-! ### `set` and `clear` -/

theorem mem_set {bm bm' : PriorityBitmap G} {p : ℕ} (h : bm.set p = some bm') (q : ℕ) :
    bm'.Mem q ↔ q = p ∨ bm.Mem q := by
  unfold set at h
  simp only at h
  split at h
  · rename_i hg
    obtain rfl := Option.some.inj h
    rw [mem_iff, mem_iff]
    by_cases he : q / 64 = p / 64
    · simp only [he, Vector.getElem_set_self, Word.getLsbD_orBit _ (Nat.mod_lt p (by decide)), hg,
        exists_true_left]
      constructor
      · rintro (h | h)
        · exact Or.inl (by omega)
        · exact Or.inr h
      · rintro (rfl | h)
        · exact Or.inl rfl
        · exact Or.inr h
    · have hne : q ≠ p := fun h => he (by rw [h])
      simp only [Vector.getElem_set_ne _ _ (Ne.symm he), hne, false_or]
  · cases h

theorem mem_clear {bm bm' : PriorityBitmap G} {p : ℕ} (h : bm.clear p = some bm') (q : ℕ) :
    bm'.Mem q ↔ q ≠ p ∧ bm.Mem q := by
  unfold clear at h
  simp only at h
  split at h
  · rename_i hg
    obtain rfl := Option.some.inj h
    rw [mem_iff, mem_iff]
    by_cases he : q / 64 = p / 64
    · simp only [he, Vector.getElem_set_self, hg, exists_true_left,
        Word.getLsbD_andNotBit _ (Nat.mod_lt p (by decide))]
      constructor
      · rintro ⟨h1, h2⟩
        exact ⟨fun h => h1 (by rw [h]), h2⟩
      · rintro ⟨h1, h2⟩
        exact ⟨fun h => h1 (by omega), h2⟩
    · have hne : q ≠ p := fun h => he (by rw [h])
      simp only [Vector.getElem_set_ne _ _ (Ne.symm he), hne, ne_eq, not_false_eq_true, true_and]
  · cases h

theorem set_wf {bm bm' : PriorityBitmap G} {p : ℕ} (hG : G ≤ 64) (hw : bm.WF)
    (h : bm.set p = some bm') : bm'.WF := by
  unfold set at h
  simp only at h
  split at h
  · rename_i hg
    obtain rfl := Option.some.inj h
    intro g
    rw [Word.getLsbD_orBit _ (by omega : p / 64 < 64), hw g]
    by_cases he : g = p / 64
    · subst he
      have hbit : (bm.groupTable[p / 64] ||| (1#64 <<< (p % 64))).getLsbD (p % 64) = true :=
        (Word.getLsbD_orBit _ (Nat.mod_lt p (by decide)) _).mpr (Or.inl rfl)
      simp only [true_or, Vector.getElem_set_self, true_iff]
      exact ⟨hg, Word.ne_zero_of_getLsbD hbit⟩
    · simp only [he, false_or, Vector.getElem_set_ne _ _ (Ne.symm he)]
  · cases h

theorem clear_wf {bm bm' : PriorityBitmap G} {p : ℕ} (hG : G ≤ 64) (hw : bm.WF)
    (h : bm.clear p = some bm') : bm'.WF := by
  unfold clear at h
  simp only at h
  split at h
  · rename_i hg
    obtain rfl := Option.some.inj h
    intro g
    by_cases he : g = p / 64
    · subst he
      simp only [Vector.getElem_set_self, hg, exists_true_left]
      split
      · rename_i h0
        rw [Word.getLsbD_andNotBit _ (by omega : p / 64 < 64)]
        simp [h0]
      · rename_i h0
        refine ⟨fun _ => h0, fun _ => (hw _).mpr ⟨hg, fun hz => h0 ?_⟩⟩
        rw [hz]; simp
    · have hmap : (if bm.groupTable[p / 64] &&& ~~~(1#64 <<< (p % 64)) = 0#64
            then bm.groupMap &&& ~~~(1#64 <<< (p / 64)) else bm.groupMap).getLsbD g = true ↔
          bm.groupMap.getLsbD g = true := by
        split
        · rw [Word.getLsbD_andNotBit _ (by omega : p / 64 < 64)]
          simp [he]
        · rfl
      rw [hmap, hw g]
      simp only [Vector.getElem_set_ne _ _ (Ne.symm he)]
  · cases h

/-- In range, `set` does not panic. -/
theorem set_isSome (bm : PriorityBitmap G) {p : ℕ} (h : p < G * 64) : (bm.set p).isSome := by
  have : p / 64 < G := by omega
  simp [set, this]

theorem clear_isSome (bm : PriorityBitmap G) {p : ℕ} (h : p < G * 64) : (bm.clear p).isSome := by
  have : p / 64 < G := by omega
  simp [clear, this]

/-! ### `highest` -/

theorem groupMap_ne_zero {bm : PriorityBitmap G} (hw : bm.WF) {p : ℕ} (h : bm.Mem p) :
    bm.groupMap ≠ 0#64 := by
  obtain ⟨hg, hb⟩ := (mem_iff bm p).mp h
  exact Word.ne_zero_of_getLsbD ((hw _).mpr ⟨hg, Word.ne_zero_of_getLsbD hb⟩)

theorem highest_eq_none {bm : PriorityBitmap G} (hw : bm.WF) (h : bm.highest = some none) (p : ℕ) :
    ¬ bm.Mem p := by
  intro hp
  unfold highest at h
  rw [if_neg (groupMap_ne_zero hw hp)] at h
  simp only at h
  split at h <;> simp at h

theorem isEmpty_of_highest {bm : PriorityBitmap G} (h : bm.highest = some none) :
    bm.isEmpty = true := by
  unfold highest at h
  split at h
  · rename_i h0
    exact decide_eq_true h0
  · simp only at h
    split at h <;> cases h

/-- `highest` is the least member. -/
theorem highest_least {bm : PriorityBitmap G} (hw : bm.WF) {p : ℕ} (h : bm.highest = some (some p)) :
    bm.Mem p ∧ ∀ q, bm.Mem q → p ≤ q := by
  unfold highest at h
  split at h
  · simp at h
  rename_i h0
  have hbit := Word.getLsbD_ctz h0
  have hfirst : ∀ i, bm.groupMap.getLsbD i = true → bm.groupMap.ctz.toNat ≤ i :=
    fun i => Word.ctz_le
  simp only at h
  generalize bm.groupMap.ctz.toNat = g at *
  obtain ⟨hg, hne⟩ := (hw g).mp hbit
  rw [dif_pos hg] at h
  have hlt := Word.ctz_lt hne
  have hlow := Word.getLsbD_ctz hne
  have hleast : ∀ i, (bm.groupTable[g]).getLsbD i = true → (bm.groupTable[g]).ctz.toNat ≤ i :=
    fun i => Word.ctz_le
  generalize (bm.groupTable[g]).ctz.toNat = b at *
  obtain rfl := Option.some.inj (Option.some.inj h)
  have hdiv : (g * 64 + b) / 64 = g := by omega
  have hmod : (g * 64 + b) % 64 = b := by omega
  constructor
  · rw [mem_iff]
    simp only [hdiv, hmod]
    exact ⟨hg, hlow⟩
  · intro q hq
    obtain ⟨hqg, hqb⟩ := (mem_iff bm q).mp hq
    -- the group of `q` is not empty, so it is not below the first one
    have h1 : g ≤ q / 64 := hfirst _ ((hw _).mpr ⟨hqg, Word.ne_zero_of_getLsbD hqb⟩)
    rcases Nat.lt_or_eq_of_le h1 with h2 | h2
    · omega
    · subst h2
      have h3 := hleast _ hqb
      omega

/-- `highest` never panics on a bitmap whose levels agree. -/
theorem highest_isSome {bm : PriorityBitmap G} (hw : bm.WF) : bm.highest.isSome := by
  unfold highest
  split
  · rfl
  · rename_i h0
    obtain ⟨hg, -⟩ := (hw _).mp (Word.getLsbD_ctz h0)
    simp [hg]

theorem highest_of_mem {bm : PriorityBitmap G} (hw : bm.WF) {q : ℕ} (hq : bm.Mem q) :
    ∃ p, bm.highest = some (some p) ∧ p ≤ q := by
  have h := highest_isSome hw
  rcases hh : bm.highest with _ | _ | p
  · rw [hh] at h; cases h
  · exact absurd hq (highest_eq_none hw hh q)
  · exact ⟨p, rfl, (highest_least hw hh).2 q hq⟩

end PriorityBitmap
end RtAsync

import Mathlib.Data.Nat.Bitwise
import Micron.Subdiv.Model

/-!
# Octants and box distances

A point lies in the box of its own octant, also where it is on the border of
several: the octant rule only says for which of them it counts.  A point of a box
is not nearer than the box.
-/

set_option autoImplicit false

namespace Micron.Subdiv

open List Bool

section Boxes
variable {F : Type} [LinearOrder F] {D : Nat} {b q : Box F D} {p : Point F D}

theorem contains_iff : b.contains p = true ↔ ∀ i, b.minCorner i ≤ p i ∧ p i ≤ b.maxCorner i := by
  simp [Box.contains, all_eq_true]

theorem not_isEmpty_of_contains (inside : b.contains p = true) : b.isEmpty = false := by
  rw [eq_false_iff]
  intro empty
  obtain ⟨i, _, apart⟩ := any_eq_true.mp empty
  obtain ⟨above, below⟩ := contains_iff.mp inside i
  exact absurd (le_trans above below) (not_le.mpr (of_decide_eq_true apart))

theorem intersects_of_contains (inB : b.contains p = true) (inQ : q.contains p = true) :
    b.intersects q = true := by
  unfold Box.intersects
  rw [not_isEmpty_of_contains inB, not_isEmpty_of_contains inQ, Bool.or_false, Bool.not_false,
    Bool.true_and, all_eq_true]
  intro i _
  obtain ⟨aboveB, belowB⟩ := contains_iff.mp inB i
  obtain ⟨aboveQ, belowQ⟩ := contains_iff.mp inQ i
  rw [Bool.and_eq_true, Bool.not_eq_true', Bool.not_eq_true', decide_eq_false_iff_not,
    decide_eq_false_iff_not, not_lt, not_lt]
  exact ⟨le_trans aboveB belowQ, le_trans aboveQ belowB⟩

end Boxes

section Octants
variable {F : Type} [LinearOrder F] [Field F] {D : Nat} {nb : Box F D} {p : Point F D}

theorem testBit_octants (dims : List (Fin D)) : ∀ oc j,
    (dims.foldl (fun oc d => if p d ≥ nb.center d then oc ||| 1 <<< d.val else oc) oc).testBit j =
      (oc.testBit j || dims.any fun d => decide (d.val = j) && decide (p d ≥ nb.center d)) := by
  induction dims with
  | nil =>
    intro oc j
    simp
  | cons d dims ih =>
    intro oc j
    rw [foldl_cons, ih, any_cons, ← Bool.or_assoc]
    by_cases above : p d ≥ nb.center d
    · rw [if_pos above, Nat.testBit_or, Nat.one_shiftLeft, Nat.testBit_two_pow]
      simp [above]
    · rw [if_neg above]
      simp [above]

/-- The bit of an axis tells on which side of the centre the point is. -/
theorem testBit_octant (d : Fin D) : (octant nb p).testBit d = decide (p d ≥ nb.center d) := by
  unfold octant
  rw [testBit_octants, Nat.zero_testBit, Bool.false_or, Bool.eq_iff_iff, any_eq_true]
  constructor
  · intro found
    obtain ⟨d', _, both⟩ := found
    rw [Bool.and_eq_true, decide_eq_true_eq] at both
    have same : d' = d := Fin.ext both.1
    rw [← same]
    exact both.2
  · intro above
    exact ⟨d, mem_finRange d, by simpa using above⟩

theorem octant_lt : octant nb p < 2 ^ D := by
  apply Nat.lt_pow_two_of_testBit
  intro j high
  unfold octant
  rw [testBit_octants, Nat.zero_testBit, Bool.false_or, Bool.eq_false_iff]
  intro found
  obtain ⟨d, _, both⟩ := any_eq_true.mp found
  rw [Bool.and_eq_true, decide_eq_true_eq] at both
  omega

theorem contains_childBox (inside : nb.contains p = true) :
    (childBox nb (octant nb p)).contains p = true := by
  apply contains_iff.mpr
  intro d
  obtain ⟨above, below⟩ := contains_iff.mp inside d
  unfold childBox
  simp only [testBit_octant]
  by_cases side : p d ≥ nb.center d
  · simp only [decide_eq_true side, if_true]
    exact ⟨side, below⟩
  · simp only [decide_eq_false side, false_eq_true, if_false]
    exact ⟨above, le_of_lt (not_le.mp side)⟩

end Octants

section Distances
variable {F : Type} [Field F] [LinearOrder F] [IsStrictOrderedRing F] {D : Nat} {b : Box F D}
  {p x : Point F D}

omit [Field F] [IsStrictOrderedRing F] in
theorem foldl_le {γ : Type} {f g : F → γ → F} (step : ∀ s s' c, s ≤ s' → f s c ≤ g s' c) :
    ∀ (cs : List γ) (s s' : F), s ≤ s' → cs.foldl f s ≤ cs.foldl g s' := by
  intro cs
  induction cs with
  | nil =>
    intro s s' less
    exact less
  | cons c cs ih =>
    intro s s' less
    exact ih _ _ (step s s' c less)

theorem mindist2_le (inside : b.contains x = true) : mindist2 p b ≤ dist2 p x := by
  apply foldl_le _ _ _ _ (le_refl 0)
  intro s s' d less
  obtain ⟨above, below⟩ := contains_iff.mp inside d
  by_cases left : p d < b.minCorner d
  · simp only [if_pos left]
    apply add_le_add less
    have near : 0 ≤ b.minCorner d - p d := sub_nonneg.mpr (le_of_lt left)
    have far : b.minCorner d - p d ≤ x d - p d := sub_le_sub_right above _
    calc (b.minCorner d - p d) * (b.minCorner d - p d)
        ≤ (x d - p d) * (x d - p d) := mul_self_le_mul_self near far
      _ = (p d - x d) * (p d - x d) := by rw [← neg_sub (p d) (x d), neg_mul_neg]
  · simp only [if_neg left]
    by_cases right : p d > b.maxCorner d
    · simp only [if_pos right]
      apply add_le_add less
      have near : 0 ≤ p d - b.maxCorner d := sub_nonneg.mpr (le_of_lt right)
      have far : p d - b.maxCorner d ≤ p d - x d := sub_le_sub_left below _
      exact mul_self_le_mul_self near far
    · simp only [if_neg right]
      exact le_add_of_le_of_nonneg less (mul_self_nonneg _)

end Distances

end Micron.Subdiv

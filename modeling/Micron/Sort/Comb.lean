import Mathlib.Data.Int.Interval
import Mathlib.Data.Int.ConditionallyCompleteOrder
import Mathlib.Algebra.Order.BigOperators.Group.Finset
import Mathlib.Tactic.Ring
import Micron.Sort.Model

/-!
# Comb sort

The gap falls to one, and from there every pass that exchanges anything moves greater
elements up.  A pass with gap one that exchanges nothing has found the array in order.
-/

set_option autoImplicit false

namespace Micron.Sort

open Micron.Lib List Finset

variable {α : Type} {lt : α → α → Bool} {a b : Int → α} {n gap : Int}

theorem shrink_pos (gap : Int) : 1 ≤ shrink gap := by
  unfold shrink
  dsimp only
  split <;> split <;> omega

theorem shrink_lt (long : 1 < gap) : shrink gap < gap := by
  unfold shrink
  dsimp only
  split <;> split <;> omega

theorem combPass_quiet (le : gap ≤ n) (quiet : (combPass lt gap n a).1 = false) :
    (combPass lt gap n a).2 = a ∧ ∀ i, 0 ≤ i → i < n - gap → lt (a (i + gap)) (a i) = false := by
  refine forRange_inv
    (fun i (s : Bool × (Int → α)) => s.1 = false → s.2 = a ∧ ∀ x, 0 ≤ x → x < i → lt (a (x + gap)) (a x) = false)
    (by omega : 0 ≤ n - gap) ?_ ?_ quiet
  · intro _
    exact ⟨rfl, fun x low high => by omega⟩
  · intro i s low high holds
    split
    next =>
      intro impossible
      cases impossible
    next notLess =>
      intro still
      obtain ⟨same, before⟩ := holds still
      rw [same] at notLess ⊢
      refine ⟨rfl, ?_⟩
      intro x low' high'
      by_cases last : x = i
      · rw [last]
        exact Bool.eq_false_iff.mpr notLess
      · exact before x low' (by omega)

def Settles (lt : α → α → Bool) (n gap : Int) (swapped : Bool) (a : Int → α) : Prop :=
  ∃ bound b, (∀ rounds, bound ≤ rounds → combLoop lt n rounds gap swapped a = some b) ∧
    Sorts lt n a b

theorem Settles.done (ordered : Ordered lt 0 n a) : Settles lt n 1 false a := by
  refine ⟨1, a, ?_, Rearranged.refl _ _ _, ordered⟩
  intro rounds enough
  obtain ⟨rounds, rfl⟩ := Nat.exists_eq_add_of_le' enough
  rw [combLoop, if_neg (by simp)]

theorem Settles.step {swapped : Bool} (more : gap > 1 ∨ swapped = true)
    (moved : Rearranged 0 n a (combPass lt (shrink gap) n a).2)
    (rest : Settles lt n (shrink gap) (combPass lt (shrink gap) n a).1
      (combPass lt (shrink gap) n a).2) : Settles lt n gap swapped a := by
  obtain ⟨bound, b, all, sorts⟩ := rest
  refine ⟨bound + 1, b, ?_, moved.trans sorts.rearranged, sorts.ordered⟩
  intro rounds enough
  obtain ⟨rounds, rfl⟩ := Nat.exists_eq_add_of_le' (le_trans (Nat.le_add_left 1 bound) enough)
  rw [combLoop, if_pos more]
  exact all rounds (by omega)

def rank (lt : α → α → Bool) (row : List α) (v : α) : Nat := row.countP fun u => lt u v

noncomputable def weight (lt : α → α → Bool) (row : List α) (n : Int) (a : Int → α) : Int :=
  ∑ k ∈ Finset.Ico 0 n, k * rank lt row (a k)

theorem weight_le (lt : α → α → Bool) (row : List α) (n : Int) (a : Int → α) :
    weight lt row n a ≤ (Finset.Ico 0 n).card • (n * row.length) := by
  refine sum_le_card_nsmul _ _ _ ?_
  intro k inside
  rw [mem_Ico] at inside
  have : (rank lt row (a k) : Int) ≤ row.length := by
    exact_mod_cast countP_le_length
  calc
    k * rank lt row (a k) ≤ k * row.length := Int.mul_le_mul_of_nonneg_left this inside.1
    _ ≤ n * row.length := Int.mul_le_mul_of_nonneg_right (by omega) (by omega)

theorem weight_swap (row : List α) {i j : Int} (low : 0 ≤ i) (less : i < j) (high : j < n) :
    weight lt row n (swapAt a i j) =
      weight lt row n a + (j - i) * (rank lt row (a i) - rank lt row (a j)) := by
  have apart : ∀ f : Int → Int, ∑ k ∈ Finset.Ico 0 n, f k =
      f i + (f j + ∑ k ∈ ((Finset.Ico 0 n).erase i).erase j, f k) := by
    intro f
    rw [add_sum_erase, add_sum_erase]
    · exact mem_Ico.mpr ⟨low, by omega⟩
    · exact mem_erase.mpr ⟨by omega, mem_Ico.mpr ⟨by omega, high⟩⟩
  rw [weight, weight, apart, apart, swapAt_left, swapAt_right]
  have others : ∑ k ∈ ((Finset.Ico 0 n).erase i).erase j, k * (rank lt row (swapAt a i j k) : Int) =
      ∑ k ∈ ((Finset.Ico 0 n).erase i).erase j, k * (rank lt row (a k) : Int) := by
    refine sum_congr rfl ?_
    intro k inside
    rw [mem_erase, mem_erase] at inside
    rw [swapAt_of_ne inside.2.1 inside.1]
  rw [others]
  ring

section Weak
variable [IsStrictWeakOrder α (Lesser lt)]

theorem rank_lt {row : List α} {u v : α} (member : u ∈ row) (less : lt u v = true) :
    rank lt row u < rank lt row v := by
  have mono : ∀ part : List α, rank lt part u ≤ rank lt part v := by
    intro part
    refine countP_mono_left ?_
    intro x _ less'
    exact weak_trans (r := Lesser lt) less' less
  obtain ⟨front, back, rfl⟩ := append_of_mem member
  have first := mono front
  have second := mono back
  unfold rank at first second ⊢
  simp only [countP_append, countP_cons, less, comp_irrefl, if_true, Bool.false_eq_true,
    if_false]
  omega

/-- A pass rearranges, and where it exchanged anything the weight grows. -/
theorem combPass_weight {row : List α} (positive : 1 ≤ gap) (le : gap ≤ n)
    (row_eq : (cells 0 n a).Perm row) :
    Rearranged 0 n a (combPass lt gap n a).2 ∧
      ((combPass lt gap n a).1 = true →
        weight lt row n a < weight lt row n (combPass lt gap n a).2) := by
  have both : Rearranged 0 n a (combPass lt gap n a).2 ∧
      weight lt row n a ≤ weight lt row n (combPass lt gap n a).2 ∧
      ((combPass lt gap n a).1 = true →
        weight lt row n a < weight lt row n (combPass lt gap n a).2) := by
    refine forRange_inv
      (fun _ (s : Bool × (Int → α)) => Rearranged 0 n a s.2 ∧
        weight lt row n a ≤ weight lt row n s.2 ∧
        (s.1 = true → weight lt row n a < weight lt row n s.2))
      (by omega : 0 ≤ n - gap) ?_ ?_
    · refine ⟨Rearranged.refl _ _ _, le_refl _, ?_⟩
      intro impossible
      cases impossible
    · intro i s low high holds
      obtain ⟨moved, weightLe, weightLt⟩ := holds
      split
      next less =>
        have member : s.2 (i + gap) ∈ row := row_eq.mem_iff.mp
          (moved.perm.mem_iff.mp (mem_cells.mpr ⟨i + gap, by omega, by omega, rfl⟩))
        have ranks := rank_lt member less
        have swapped := @weight_swap _ lt s.2 n row _ _ low (by omega : i < i + gap)
          (by omega : i + gap < n)
        have grown : 0 < (i + gap - i) *
            ((rank lt row (s.2 i) : Int) - rank lt row (s.2 (i + gap))) :=
          Int.mul_pos (by omega) (by omega)
        refine ⟨moved.trans (Rearranged.swap low (by omega) (by omega) (by omega)), ?_, ?_⟩
        · show _ ≤ weight lt row n (swapAt s.2 i (i + gap))
          omega
        · intro _
          show _ < weight lt row n (swapAt s.2 i (i + gap))
          omega
      next => exact ⟨moved, weightLe, weightLt⟩
  exact ⟨both.1, both.2.2⟩

theorem combPass_ordered (le : 1 ≤ n) (quiet : (combPass lt 1 n a).1 = false) :
    Ordered lt 0 n (combPass lt 1 n a).2 := by
  obtain ⟨same, adjacent⟩ := combPass_quiet le quiet
  rw [same]
  exact ordered_of_adjacent fun i low high => adjacent i low (by omega)

/-- From gap one on the weight grows with every round that is not the last. -/
theorem settles_one (le : 1 ≤ n) (row : List α) (swapped : Bool) (a : Int → α)
    (quiet : swapped = false → Ordered lt 0 n a) (row_eq : (cells 0 n a).Perm row) :
    Settles lt n 1 swapped a := by
  induction measured : ((Finset.Ico 0 n).card • (n * row.length) - weight lt row n a).toNat
    using Nat.strong_induction_on generalizing swapped a with
  | _ m ih =>
    cases swapped with
    | false => exact Settles.done (quiet rfl)
    | true =>
      obtain ⟨moved, grows⟩ := @combPass_weight _ lt a n 1 _ _ (le_refl 1) le row_eq
      refine Settles.step (.inr rfl) moved ?_
      show Settles lt n 1 (combPass lt 1 n a).1 (combPass lt 1 n a).2
      cases exchanged : (combPass lt 1 n a).1 with
      | false => exact Settles.done (combPass_ordered le exchanged)
      | true =>
        have upper := weight_le lt row n (combPass lt 1 n a).2
        have grown := grows exchanged
        exact ih _ (by omega) true _ (fun impossible => by cases impossible)
          (moved.perm.trans row_eq) rfl

theorem settles (gap : Int) (positive : 1 ≤ gap) (le : gap ≤ n) (swapped : Bool) (a : Int → α)
    (quiet : gap = 1 → swapped = false → Ordered lt 0 n a) : Settles lt n gap swapped a := by
  induction measured : gap.toNat using Nat.strong_induction_on generalizing gap swapped a with
  | _ m ih =>
    by_cases one : gap = 1
    · subst one
      exact settles_one le _ swapped a (quiet rfl) (List.Perm.refl _)
    · have low := shrink_pos gap
      have less := shrink_lt (by omega : 1 < gap)
      have moved := (@combPass_weight _ lt a n (shrink gap) _ (cells 0 n a) low (by omega)
        (List.Perm.refl _)).1
      refine Settles.step (.inl (by omega)) moved (ih _ (by omega) (shrink gap) low (by omega)
        _ _ ?_ rfl)
      intro last still
      rw [last] at still ⊢
      exact combPass_ordered (by omega) still

theorem comb_sorts (n : Int) (a : Int → α) :
    ∃ bound b, (∀ rounds, bound ≤ rounds → comb lt rounds n a = some b) ∧ Sorts lt n a b := by
  unfold comb
  split
  next => exact ⟨0, a, fun _ _ => rfl, Rearranged.refl _ _ _, Ordered.of_short (by omega)⟩
  next =>
    exact settles n (by omega) (le_refl n) true a fun _ impossible => by cases impossible

end Weak

end Micron.Sort

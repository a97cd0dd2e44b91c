import Micron.Sort.Bitonic
import Micron.Sort.Comb
import Micron.Sort.Heap
import Micron.Sort.Merge
import Micron.Sort.Quick

/-!
# Every sort sorts
-/

set_option autoImplicit false

namespace Micron.Sort

open Micron.Lib

/-- Whatever the comparison, every sort ends, and leaves the elements in order. -/
theorem every_algorithm_sorts {α : Type} (lt : α → α → Bool) [IsStrictWeakOrder α (Lesser lt)]
    (algorithm : Algorithm) (n : Nat) (a : Int → α) :
    ∃ bound b, (∀ rounds, bound ≤ rounds → algorithm.run lt rounds n a = some b) ∧
      (cells 0 n b).Perm (cells 0 n a) ∧ (∀ i : Int, i < 0 ∨ n ≤ i → b i = a i) ∧
      ∀ i j : Int, 0 ≤ i → i < j → j < n → lt (b j) (b i) = false := by
  have total : ∀ b, Sorts lt n a b → (∀ rounds, algorithm.run lt rounds n a = some b) →
      ∃ bound b, (∀ rounds, bound ≤ rounds → algorithm.run lt rounds n a = some b) ∧
        Sorts lt n a b := by
    intro b sorts run
    exact ⟨0, b, fun rounds _ => run rounds, sorts⟩
  have sorts : ∃ bound b, (∀ rounds, bound ≤ rounds → algorithm.run lt rounds n a = some b) ∧
      Sorts lt n a b := by
    cases algorithm with
    | sort => exact total _ (sort_sorts n a) fun _ => rfl
    | quick => exact total _ (quick_sorts (by omega) a) fun _ => rfl
    | merge => exact total _ (merge_sorts (by omega) a) fun _ => rfl
    | mergeBottomUp => exact total _ (mergeBottomUp_sorts n a) fun _ => rfl
    | heap => exact total _ (heap_sorts n a) fun _ => rfl
    | shell => exact total _ (shell_sorts (by omega) a) fun _ => rfl
    | comb => exact comb_sorts n a
    | selection => exact total _ (selection_sorts (by omega) a) fun _ => rfl
    | insertion => exact total _ (insertion_sorts (by omega) a) fun _ => rfl
    | bitonic => exact total _ (bitonic_sorts n a) fun _ => rfl
  obtain ⟨bound, b, run, sorts⟩ := sorts
  exact ⟨bound, b, run, sorts.rearranged.perm, sorts.rearranged.outside, sorts.ordered⟩

/-- Comb sort of numbers. -/
theorem every_algorithm_sorts_comb :
    ∃ bound b, (∀ rounds, bound ≤ rounds →
        Algorithm.comb.run (fun x y : Nat => decide (x < y)) rounds 5 (fun i => (7 - i).toNat) =
          some b) ∧
      (cells 0 (5 : Nat) b).Perm [7, 6, 5, 4, 3] ∧
      (∀ i : Int, i < 0 ∨ (5 : Nat) ≤ i → b i = (7 - i).toNat) ∧
      ∀ i j : Int, 0 ≤ i → i < j → j < (5 : Nat) → decide (b j < b i) = false :=
  every_algorithm_sorts (fun x y : Nat => decide (x < y)) Algorithm.comb 5 fun i => (7 - i).toNat

end Micron.Sort

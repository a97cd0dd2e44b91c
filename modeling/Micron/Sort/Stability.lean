import Micron.Sort.Merge
import Micron.Sort.Radix

/-!
# Stability

Insertion sort exchanges neighbours of which one is less, and merge sort takes tied elements
from the left run first.  Radix and counting sort are stable sorts by the distance of a key
from the least one, which tells all keys of 64 bits apart.
-/

set_option autoImplicit false

namespace Micron.Sort

open Micron.Lib Function Int

section Comparisons
variable {α : Type} {lt : α → α → Bool} {a b : Int → α} {n j : Int}

theorem SortsStably.of_stably (moved : Stably lt 0 n a b) (ordered : Ordered lt 0 n b) :
    SortsStably lt n a b :=
  ⟨moved.outside, ordered_iff.mp ordered, moved.kept⟩

variable [IsStrictWeakOrder α (Lesser lt)]

theorem SortsStably.unique {c : Int → α} (first : SortsStably lt n a b)
    (second : SortsStably lt n a c) : b = c := by
  have same := first.stable.unique second.stable
  funext i
  by_cases inside : 0 ≤ i ∧ i < n
  · have entry := List.map_inj_left.mp same i.toNat (List.mem_range.mpr (by omega))
    rwa [zero_add, toNat_of_nonneg inside.1] at entry
  · rw [first.outside i (by omega), second.outside i (by omega)]

theorem shift_stably (key : α) (low : 0 ≤ j) (high : j < n) :
    Stably lt 0 n (update a j key) (shift lt 1 key j a) := by
  induction j, a using shift.induct lt 1 key with
  | case1 j a more ih =>
    rw [shift, if_pos more]
    have apart : j - 1 ≠ j := by omega
    have moved : update (update a j (a (j - 1))) (j - 1) key =
        swapAt (update a j key) (j - 1) (j - 1 + 1) := by
      rw [sub_add_cancel, swapAt, update_self, update_of_ne apart]
      rw [update_comm apart, update_idem, update_comm apart.symm]
    have less : lt (update a j key (j - 1 + 1)) (update a j key (j - 1)) = true := by
      rw [sub_add_cancel, update_self, update_of_ne apart]
      exact more.2.2
    have swapped := Stably.swap_next less
    rw [← moved] at swapped
    exact (swapped.widen (by omega) (by omega) (by omega)).trans (ih (by omega) (by omega))
  | case2 j a last =>
    rw [shift, if_neg last]
    exact Stably.refl _ _ _ _

theorem insertion_stably (low : 0 ≤ n) (a : Int → α) : SortsStably lt n a (insertion lt n a) := by
  refine SortsStably.of_stably ?_ (insertion_sorts low a).ordered
  rcases Int.lt_or_le 0 n with some | none
  · refine forRange_inv (fun _ b => Stably lt 0 n a b) some (Stably.refl _ _ _ _) ?_
    intro i b low high moved
    have step := @shift_stably _ lt b n i _ (b i) (by omega) high
    rw [update_eq_self] at step
    exact moved.trans step
  · rw [insertion, gapPass, forRange_empty (by omega)]
    exact Stably.refl _ _ _ _

end Comparisons

/-- Merge, bottom-up merge and insertion sort are stable.  Radix and counting sort are exactly
where the distances tell the keys apart, and keys of at most 64 bits they do. -/
theorem stable_sorts_exactly {α : Type} (lt : α → α → Bool) [IsStrictWeakOrder α (Lesser lt)]
    (K : KeyType) (key : α → K.Key) (n : Nat) (a : Int → α) :
    (SortsStably lt n a (merge lt n a) ∧ SortsStably lt n a (mergeBottomUp lt n a) ∧
      SortsStably lt n a (insertion lt n a)) ∧
    (SortsStably (K.lessBy key) n a (radix K key n a) ↔ RadixAgrees K key n a) ∧
    ((∃ b, counting K key n a = some b ∧ SortsStably (K.lessBy key) n a b) ↔ CountingAgrees K key n a) ∧
    (K.size ≤ 8 → RadixAgrees K key n a ∧ CountingAgrees K key n a) := by
  have merged := @merge_stably _ lt _ n (natCast_nonneg n) a
  have bottomUp := @mergeBottomUp_stably _ lt _ n a
  refine ⟨⟨SortsStably.of_stably merged.1 merged.2, SortsStably.of_stably bottomUp.1 bottomUp.2,
    insertion_stably (natCast_nonneg n) a⟩, radix_iff, counting_iff, ?_⟩
  exact fun small => agree_of_near fun _ _ _ _ => near_of_words small _ _

theorem stable_sorts_exactly_ints :
    ∃ K : KeyType, K.signed = true ∧ K.size = 4 ∧ ∃ key : Nat → K.Key, ∃ a : Int → Nat,
      SortsStably (K.lessBy key) 3 a (radix K key 3 a) ∧
        ∃ b, counting K key 3 a = some b ∧ SortsStably (K.lessBy key) 3 a b := by
  obtain ⟨-, radixIff, countingIff, small⟩ :=
    stable_sorts_exactly (fun x y : Nat => decide (x < y)) ⟨true, 4, 2, rfl⟩ (BitVec.ofNat 32) 3
      (fun i => if i = 0 then 2 ^ 31 else 2 ^ 31 - 1)
  obtain ⟨radixAgrees, countingAgrees⟩ := small (by decide)
  exact ⟨_, rfl, rfl, _, _, radixIff.mpr radixAgrees, countingIff.mpr countingAgrees⟩

/-- The stable sorts give one array, radix and counting sort as far as they are stable. -/
theorem stable_sorts_agree {α : Type} (K : KeyType) (key : α → K.Key) (n : Nat) (a : Int → α) :
    mergeBottomUp (K.lessBy key) n a = merge (K.lessBy key) n a ∧
    insertion (K.lessBy key) n a = merge (K.lessBy key) n a ∧
    (radix K key n a = merge (K.lessBy key) n a ↔ RadixAgrees K key n a) ∧
    (counting K key n a = some (merge (K.lessBy key) n a) ↔ CountingAgrees K key n a) := by
  have bottomUp := @mergeBottomUp_stably _ (K.lessBy key) _ n a
  have merged := @merge_stably _ (K.lessBy key) _ n (natCast_nonneg n) a
  have sorted := SortsStably.of_stably merged.1 merged.2
  refine ⟨(SortsStably.of_stably bottomUp.1 bottomUp.2).unique sorted,
    (insertion_stably (natCast_nonneg n) a).unique sorted, ?_, ?_⟩
  · rw [← radix_iff]
    refine ⟨?_, fun sorts => sorts.unique sorted⟩
    intro same
    rw [same]
    exact sorted
  · rw [← counting_iff]
    constructor
    · intro same
      exact ⟨_, same, sorted⟩
    · rintro ⟨b, found, sorts⟩
      rw [found, sorts.unique sorted]

/-- Two keys of 128 bits that are a multiple of 2 ^ 64 apart stay as they are. -/
theorem radix_leaves_int128 :
    let K : KeyType := ⟨true, 16, 4, rfl⟩
    let a : Int → K.Key := fun i => if i = 0 then 0x10000000000000000 else 0
    ¬SortsStably (K.lessBy id) (2 : Nat) a (radix K id 2 a) ∧
      ¬∃ b, counting K id 2 a = some b ∧ SortsStably (K.lessBy id) (2 : Nat) a b := by
  intro K a
  have disagree : ¬RadixAgrees K id 2 a := by
    intro agrees
    have first : compared K id 2 a (a 0) = 0 := by
      have same : offset K id (biasMin K id 2 a) (a 0) = 0 := by decide +kernel
      rw [compared, same, Nat.zero_mod]
    have less := (agrees 0 1 (by decide) (by decide)).mp (by decide +kernel)
    rw [Nat.cast_zero, first] at less
    exact Nat.not_lt_zero _ less
  exact ⟨fun sorts => disagree (radix_iff.mp sorts), fun sorts => disagree (counting_iff.mp sorts).1⟩

end Micron.Sort

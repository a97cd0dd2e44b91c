import Micron.Lib.StableSort
import Micron.Sort.Model

/-!
# Merge sort

A merge of two runs of the array is the merge of two lists, and it keeps the order of tied
elements.
-/

set_option autoImplicit false

namespace Micron.Sort

open Micron.Lib List Function

variable {α : Type} {lt : α → α → Bool} {a b : Int → α} {lo hi : Int}

theorem ordered_iff : Ordered lt lo hi a ↔ (cells lo hi a).Pairwise fun x y => lt y x = false := by
  rw [cells, pairwise_map, pairwise_iff_getElem]
  refine ⟨?_, ?_⟩
  · intro ordered i j inside inside' less
    rw [length_range] at inside inside'
    rw [getElem_range, getElem_range]
    exact ordered _ _ (by omega) (by omega) (by omega)
  · intro pairs i j low less high
    have pair := pairs (i - lo).toNat (j - lo).toNat (by rw [length_range]; omega)
      (by rw [length_range]; omega) (by omega)
    rw [getElem_range, getElem_range] at pair
    rw [show lo + ((i - lo).toNat : Int) = i by omega,
      show lo + ((j - lo).toNat : Int) = j by omega] at pair
    exact pair

theorem Ordered.congr (ordered : Ordered lt lo hi a) (same : ∀ i, lo ≤ i → i < hi → b i = a i) :
    Ordered lt lo hi b := by
  intro i j low less high
  rw [same i low (by omega), same j (by omega) high]
  exact ordered i j low less high

/-- A loop that writes `v` at `k` and then only behind it. -/
theorem written {v : α} {k stop : Int} {rest : List α} (less : k < stop)
    (written : (∀ x, x < k + 1 ∨ stop ≤ x → b x = update a k v x) ∧
      cells (k + 1) stop b = rest) :
    (∀ x, x < k ∨ stop ≤ x → b x = a x) ∧ cells k stop b = v :: rest := by
  obtain ⟨outside, equal⟩ := written
  refine ⟨?_, ?_⟩
  · intro x out
    rw [outside x (by omega), update_of_ne (by omega)]
  · rw [cells_cons less, equal, outside k (by omega), update_self]

/-- The loops write the merge of what is left of both runs. -/
theorem mergeLoop_spec (lt : α → α → Bool) (L R : Int → α) (n1 n2 : Int) {i j : Int} (k : Int)
    (a : Int → α) (low : i ≤ n1) (low' : j ≤ n2) :
    (∀ x, x < k ∨ k + (n1 - i) + (n2 - j) ≤ x → mergeLoop lt L R n1 n2 i j k a x = a x) ∧
      cells k (k + (n1 - i) + (n2 - j)) (mergeLoop lt L R n1 n2 i j k a) =
        List.merge (cells i n1 L) (cells j n2 R) fun x y => !lt y x := by
  have left : ∀ i j : Int, k + 1 + (n1 - (i + 1)) + (n2 - j) = k + (n1 - i) + (n2 - j) := by
    intro i j
    omega
  induction i, j, k, a using mergeLoop.induct lt L R n1 n2 with
  | case1 i j k a more less ih =>
    rw [mergeLoop, if_pos more, if_pos less, cells_cons more.1, cells_cons more.2,
      cons_merge_cons, if_neg (by simp [less])]
    have rest := ih low (by omega) (by intro i j; omega)
    rw [show k + 1 + (n1 - i) + (n2 - (j + 1)) = k + (n1 - i) + (n2 - j) by omega,
      cells_cons more.1] at rest
    exact written (by omega) rest
  | case2 i j k a more notLess ih =>
    rw [mergeLoop, if_pos more, if_neg notLess, cells_cons more.1, cells_cons more.2,
      cons_merge_cons, if_pos (by simp [notLess])]
    have rest := ih (by omega) low' (by intro i j; omega)
    rw [left, cells_cons more.2] at rest
    exact written (by omega) rest
  | case3 i j k a done more ih =>
    have none : cells j n2 R = [] := cells_empty (by omega)
    rw [mergeLoop, if_neg done, if_pos more, none, merge_right, cells_cons more]
    have rest := ih (by omega) low' (by intro i j; omega)
    rw [left, none, merge_right] at rest
    exact written (by omega) rest
  | case4 i j k a done none more ih =>
    have empty : cells i n1 L = [] := cells_empty (by omega)
    rw [mergeLoop, if_neg done, if_neg none, if_pos more, empty, nil_merge, cells_cons more]
    have rest := ih low (by omega) (by intro i j; omega)
    rw [show k + 1 + (n1 - i) + (n2 - (j + 1)) = k + (n1 - i) + (n2 - j) by omega,
      empty, nil_merge] at rest
    exact written (by omega) rest
  | case5 i j k a done none none' =>
    rw [mergeLoop, if_neg done, if_neg none, if_neg none']
    refine ⟨fun _ _ => rfl, ?_⟩
    have empty : cells i n1 L = [] := cells_empty (by omega)
    have empty' : cells j n2 R = [] := cells_empty (by omega)
    rw [cells_empty (by omega), empty, empty', nil_merge]

theorem mergeInto_rearranged (lt : α → α → Bool) {left mid right : Int} (low : left ≤ mid + 1)
    (high : mid ≤ right) (a : Int → α) :
    Rearranged left (right + 1) a (mergeInto lt left mid right a) ∧
      cells left (right + 1) (mergeInto lt left mid right a) =
        List.merge (cells left (mid + 1) a) (cells (mid + 1) (right + 1) a) fun x y => !lt y x := by
  obtain ⟨outside, equal⟩ := mergeLoop_spec lt (fun i => a (left + i)) (fun j => a (mid + 1 + j))
    (mid - left + 1) (right - mid) left a (by omega : 0 ≤ mid - left + 1) (by omega : 0 ≤ right - mid)
  have shifted : ∀ lo n : Int, cells 0 n (fun i => a (lo + i)) = cells lo (lo + n) a := by
    intro lo n
    rw [cells, cells, show (lo + n - lo).toNat = (n - 0).toNat by omega]
    refine map_congr_left ?_
    intro k _
    congr 1
    omega
  rw [shifted, shifted, show left + (mid - left + 1) = mid + 1 by omega,
    show mid + 1 + (right - mid) = right + 1 by omega] at equal
  rw [show left + (mid - left + 1 - 0) + (right - mid - 0) = right + 1 by omega] at outside equal
  refine ⟨⟨outside, ?_⟩, equal⟩
  have joined : cells left (right + 1) a = cells left (mid + 1) a ++ cells (mid + 1) (right + 1) a :=
    cells_append low (by omega)
  rw [joined, show mergeInto lt left mid right a = mergeLoop lt _ _ _ _ 0 0 left a from rfl, equal]
  exact merge_perm_append _

section Weak
variable [IsStrictWeakOrder α (Lesser lt)]

theorem mergeInto_ordered {left mid right : Int} (low : left ≤ mid + 1) (high : mid ≤ right)
    (first : Ordered lt left (mid + 1) a) (second : Ordered lt (mid + 1) (right + 1) a) :
    Ordered lt left (right + 1) (mergeInto lt left mid right a) := by
  rw [ordered_iff] at first second ⊢
  rw [(mergeInto_rearranged lt low high a).2]
  refine (@List.pairwise_merge _ (fun x y => !lt y x) ?_ ?_ _ _
    (first.imp (by simp)) (second.imp (by simp))).imp (by simp)
  · intro x y z less less'
    rw [Bool.not_eq_true'] at less less' ⊢
    exact comp_trans_false less' less
  · intro x y
    cases less : lt y x with
    | false => rfl
    | true =>
      rw [comp_asymm less]
      rfl

theorem mergeInto_stably {left mid right : Int} (low : left ≤ mid + 1) (high : mid ≤ right)
    (first : Ordered lt left (mid + 1) a) :
    Stably lt left (right + 1) a (mergeInto lt left mid right a) := by
  obtain ⟨moved, equal⟩ := mergeInto_rearranged lt low high a
  refine ⟨moved, ?_⟩
  intro v
  have joined : cells left (right + 1) a = cells left (mid + 1) a ++ cells (mid + 1) (right + 1) a :=
    cells_append low (by omega)
  rw [equal, filter_merge (ordered_iff.mp first), joined, filter_append]

theorem mergeSortWith_sorts (left right : Int) (a : Int → α) (le : left ≤ right + 1) :
    Stably lt left (right + 1) a (mergeSortWith lt left right a) ∧
      Ordered lt left (right + 1) (mergeSortWith lt left right a) := by
  induction measured : (right - left).toNat using Nat.strong_induction_on generalizing left right a with
  | _ m ih =>
    rw [mergeSortWith]
    split
    next short => exact ⟨Stably.refl _ _ _ _, Ordered.of_short (by omega)⟩
    next long =>
      dsimp only
      have lower : left ≤ left + (right - left) / 2 := by omega
      have upper : left + (right - left) / 2 < right := by omega
      generalize left + (right - left) / 2 = mid at lower upper
      obtain ⟨first, ordered⟩ := ih _ (by omega) left mid a (by omega) rfl
      generalize mergeSortWith lt left mid a = b at first ordered
      obtain ⟨second, ordered'⟩ := ih _ (by omega) (mid + 1) right b (by omega) rfl
      generalize mergeSortWith lt (mid + 1) right b = c at second ordered'
      have kept : Ordered lt left (mid + 1) c :=
        ordered.congr fun i _ high => second.outside i (.inl high)
      refine ⟨?_, mergeInto_ordered (by omega) (by omega) kept ordered'⟩
      have both := (first.widen (le_refl left) (by omega) (by omega)).trans
        (second.widen (by omega) (by omega) (le_refl (right + 1)))
      exact both.trans (mergeInto_stably (by omega) (by omega) kept)

theorem merge_stably {n : Int} (low : 0 ≤ n) (a : Int → α) :
    Stably lt 0 n a (merge lt n a) ∧ Ordered lt 0 n (merge lt n a) := by
  rw [merge]
  split
  next =>
    have both := @mergeSortWith_sorts _ lt _ 0 (n - 1) a (by omega)
    rw [Int.sub_add_cancel] at both
    exact both
  next => exact ⟨Stably.refl _ _ _ _, Ordered.of_short (by omega)⟩

theorem merge_sorts {n : Int} (low : 0 ≤ n) (a : Int → α) : Sorts lt n a (merge lt n a) :=
  ⟨(merge_stably low a).1.toRearranged, (merge_stably low a).2⟩

/-- Every run of the width is in order; the last may be shorter. -/
def RunsOrdered (lt : α → α → Bool) (n width : Int) (a : Int → α) : Prop :=
  ∀ s, 0 ≤ s → width ∣ s → Ordered lt s (min (s + width) n) a

/-- In front of `i` runs of twice the width, behind it still runs of the width. -/
structure Between (lt : α → α → Bool) (n width i : Int) (a : Int → α) : Prop where
  merged : ∀ s, 0 ≤ s → s < i → 2 * width ∣ s → Ordered lt s (min (s + 2 * width) n) a
  rest : ∀ s, i ≤ s → width ∣ s → Ordered lt s (min (s + width) n) a

omit [IsStrictWeakOrder α (Lesser lt)] in
/-- What one round of the inner loop makes of the two runs at `i`. -/
theorem Between.step {n width i : Int} (positive : 0 < width) (inside : i < n)
    (low : 0 ≤ i) (aligned : 2 * width ∣ i) (between : Between lt n width i a)
    (moved : Stably lt i (min (i + 2 * width) n) a b)
    (ordered : Ordered lt i (min (i + 2 * width) n) b) :
    Stably lt 0 n a b ∧ Between lt n width (i + 2 * width) b := by
  refine ⟨moved.widen low (by omega) (by omega), ?_, ?_⟩
  · intro s low' high divides
    by_cases here : s = i
    · rw [here]
      exact ordered
    · have apart : s + 2 * width ≤ i := by
        rcases Int.lt_or_lt_of_ne here with before | behind
        · have := Int.le_of_dvd (by omega) (Int.dvd_sub aligned divides)
          omega
        · have := Int.le_of_dvd (by omega) (Int.dvd_sub divides aligned)
          omega
      refine (between.merged s low' (by omega) divides).congr ?_
      intro x _ below
      exact moved.outside x (.inl (by omega))
  · intro s low' divides
    refine (between.rest s (by omega) divides).congr ?_
    intro x above _
    exact moved.outside x (.inr (by omega))

theorem mergeRuns_ordered {n width i : Int} (positive : 0 < width) (low : 0 ≤ i)
    (aligned : 2 * width ∣ i) (between : Between lt n width i a) :
    Stably lt 0 n a (mergeRuns lt n width i a) ∧
      RunsOrdered lt n (2 * width) (mergeRuns lt n width i a) := by
  induction i, a using mergeRuns.induct lt n width with
  | case1 i a more mid right ih =>
    rw [mergeRuns, if_pos more]
    have divides : width ∣ i := Int.dvd_trans (Int.dvd_mul_left 2 width) aligned
    have first := between.rest i (le_refl i) divides
    have second := between.rest (i + width) (by omega) (Int.dvd_add divides (Int.dvd_refl width))
    have merged : ∀ b, b = (if mid ≥ n then a else if mid ≥ right then a
          else mergeInto lt i mid right a) →
        Stably lt i (min (i + 2 * width) n) a b ∧
          Ordered lt i (min (i + 2 * width) n) b := by
      intro b equal
      have bound : right + 1 = min (i + 2 * width) n := by
        dsimp only [right]
        split <;> omega
      have single : min (i + width) n = min (i + 2 * width) n →
          Stably lt i (min (i + 2 * width) n) a a ∧ Ordered lt i (min (i + 2 * width) n) a := by
        intro same
        exact ⟨Stably.refl _ _ _ _, same ▸ first⟩
      split at equal
      next alone =>
        rw [equal]
        exact single (by omega)
      next =>
        split at equal
        next alone =>
          rw [equal]
          exact single (by omega)
        next =>
          rw [equal, ← bound]
          have low' : i ≤ mid + 1 := by omega
          rw [show min (i + width) n = mid + 1 by omega] at first
          rw [show min (i + width + width) n = right + 1 by omega,
            show i + width = mid + 1 by omega] at second
          exact ⟨mergeInto_stably low' (by omega) first,
            mergeInto_ordered low' (by omega) first second⟩
    obtain ⟨moved, ordered⟩ := merged _ rfl
    obtain ⟨whole, next⟩ := between.step positive more.2 low aligned moved ordered
    obtain ⟨rest, final⟩ := ih (by omega) (Int.dvd_add aligned (Int.dvd_refl _)) next
    exact ⟨whole.trans rest, final⟩
  | case2 i a done =>
    rw [mergeRuns, if_neg done]
    refine ⟨Stably.refl _ _ _ _, ?_⟩
    intro s low' divides
    by_cases front : s < i
    · exact between.merged s low' front divides
    · exact Ordered.of_short (by omega)

theorem mergeWidths_sorts {n width : Int} (positive : 0 < width) (runs : RunsOrdered lt n width a) :
    Stably lt 0 n a (mergeWidths lt n width a) ∧ Ordered lt 0 n (mergeWidths lt n width a) := by
  induction width, a using mergeWidths.induct lt n with
  | case1 width a more ih =>
    rw [mergeWidths, if_pos more]
    have between : Between lt n width 0 a := by
      refine ⟨?_, runs⟩
      intro s low high
      omega
    obtain ⟨moved, ordered⟩ := mergeRuns_ordered positive (le_refl 0) (dvd_zero _) between
    obtain ⟨rest, final⟩ := ih (by omega) ordered
    exact ⟨moved.trans rest, final⟩
  | case2 width a done =>
    rw [mergeWidths, if_neg done]
    have whole := runs 0 (le_refl 0) (dvd_zero _)
    rw [show min (0 + width) n = n by omega] at whole
    exact ⟨Stably.refl _ _ _ _, whole⟩

theorem mergeBottomUp_stably (n : Int) (a : Int → α) :
    Stably lt 0 n a (mergeBottomUp lt n a) ∧ Ordered lt 0 n (mergeBottomUp lt n a) := by
  rw [mergeBottomUp]
  split
  next => exact ⟨Stably.refl _ _ _ _, Ordered.of_short (by omega)⟩
  next =>
    have single : RunsOrdered lt n 1 a := fun s _ _ => Ordered.of_short (by omega)
    exact mergeWidths_sorts (by omega) single

theorem mergeBottomUp_sorts (n : Int) (a : Int → α) : Sorts lt n a (mergeBottomUp lt n a) :=
  ⟨(mergeBottomUp_stably n a).1.toRearranged, (mergeBottomUp_stably n a).2⟩

end Weak

end Micron.Sort

import Micron.Sort.Model

/-!
# Quick sort and introsort

A partition puts the pivot where it belongs.  Introsort leaves short ranges and those too
deep for it in some order, and an insertion sort of the whole array follows.
-/

set_option autoImplicit false

namespace Micron.Sort

open Micron.Lib Int

variable {α : Type} {lt : α → α → Bool} {a b : Int → α} {lo hi : Int}

theorem Rearranged.swap_if {n m i j : Int} {P : Prop} [Decidable P] (low : n ≤ i) (high : i < m)
    (low' : n ≤ j) (high' : j < m) : Rearranged n m a (if P then swapAt a i j else a) := by
  split
  · exact Micron.Lib.Rearranged.swap low high low' high'
  · exact Rearranged.refl _ _ _

theorem qMed3ToHigh_rearranged (lt : α → α → Bool) (wide : lo + 2 ≤ hi) (a : Int → α) :
    Rearranged lo (hi + 1) a (qMed3ToHigh lt lo hi a) := by
  unfold qMed3ToHigh
  dsimp only
  have low : lo ≤ lo + (hi - lo) / 2 := by omega
  have high : lo + (hi - lo) / 2 < hi + 1 := by omega
  generalize lo + (hi - lo) / 2 = mid at low high
  refine (Rearranged.swap_if (P := lt (a mid) (a lo) = true) low high (le_refl lo)
    (by omega)).trans ?_
  generalize (if lt (a mid) (a lo) then swapAt a mid lo else a) = b
  refine (Rearranged.swap_if (P := lt (b hi) (b lo) = true) (i := hi) (by omega) (by omega)
    (le_refl lo) (by omega)).trans ?_
  generalize (if lt (b hi) (b lo) then swapAt b hi lo else b) = c
  refine (Rearranged.swap_if (P := lt (c hi) (c mid) = true) (i := hi) (by omega) (by omega)
    low high).trans ?_
  exact Micron.Lib.Rearranged.swap low high (by omega) (by omega)

/-- What a scan has done up to `j`: the elements below the pivot are in front. -/
structure Scanned (lt : α → α → Bool) (pivot : α) (lo hi : Int) (a : Int → α) (j : Int)
    (s : Int × (Int → α)) : Prop where
  low : lo - 1 ≤ s.1
  high : s.1 < j
  rearranged : Rearranged lo hi a s.2
  below : ∀ x, lo ≤ x → x ≤ s.1 → lt (s.2 x) pivot = true
  above : ∀ x, s.1 < x → x < j → lt (s.2 x) pivot = false

theorem Scanned.step {pivot : α} {j : Int} {s : Int × (Int → α)}
    (scanned : Scanned lt pivot lo hi a j s) (low : lo ≤ j) (high : j < hi) :
    Scanned lt pivot lo hi a (j + 1) (qScan lt pivot j s) := by
  have lowI := scanned.low
  have highI := scanned.high
  unfold qScan
  split
  next smaller =>
    have swapped : (if s.1 + 1 ≠ j then swapAt s.2 (s.1 + 1) j else s.2) =
        swapAt s.2 (s.1 + 1) j := by
      split
      next => rfl
      next same =>
        rw [not_not.mp same, swapAt_eq, Equiv.swap_self]
        rfl
    simp only [swapped]
    refine ⟨by dsimp only; omega, by dsimp only; omega, ?_, ?_, ?_⟩
    · exact scanned.rearranged.trans
        (Micron.Lib.Rearranged.swap (by omega) (by omega) low high)
    · intro x lowX highX
      dsimp only at highX ⊢
      by_cases last : x = s.1 + 1
      · rw [last, swapAt_left]
        exact smaller
      · rw [swapAt_of_ne last (by omega)]
        exact scanned.below x lowX (by omega)
    · intro x lowX highX
      dsimp only at lowX ⊢
      by_cases last : x = j
      · by_cases same : s.1 + 1 = j
        · omega
        · rw [last, swapAt_right]
          exact scanned.above (s.1 + 1) (by omega) (by omega)
      · rw [swapAt_of_ne (by omega) last]
        exact scanned.above x (by omega) (by omega)
  next notSmaller =>
    refine ⟨lowI, by omega, scanned.rearranged, scanned.below, ?_⟩
    intro x lowX highX
    by_cases last : x = j
    · rw [last]
      exact Bool.eq_false_iff.mpr notSmaller
    · exact scanned.above x lowX (by omega)

structure Split (lt : α → α → Bool) (lo hi : Int) (a : Int → α) (p : Int) (b : Int → α) : Prop where
  low : lo ≤ p
  high : p ≤ hi
  rearranged : Rearranged lo (hi + 1) a b
  below : ∀ x, lo ≤ x → x < p → lt (b x) (b p) = true
  above : ∀ x, p < x → x ≤ hi → lt (b x) (b p) = false

theorem qPartition_split (lt : α → α → Bool) (less : lo < hi) (a : Int → α) :
    Split lt lo hi a (qPartition lt lo hi a).1 (qPartition lt lo hi a).2 := by
  have scanned : Scanned lt (a hi) lo hi a hi (forRange lo hi (qScan lt (a hi)) (lo - 1, a)) := by
    refine forRange_inv (fun j s => Scanned lt (a hi) lo hi a j s) (le_of_lt less) ?_ ?_
    · refine ⟨le_refl _, by dsimp only; omega, Rearranged.refl _ _ _, ?_, ?_⟩
      · intro x lowX highX
        omega
      · intro x lowX highX
        omega
    · intro j s low high scanned
      exact scanned.step low high
  unfold qPartition
  generalize forRange lo hi (qScan lt (a hi)) (lo - 1, a) = s at scanned
  dsimp only
  have lowI := scanned.low
  have highI := scanned.high
  have last : s.2 hi = a hi := scanned.rearranged.outside hi (.inr (le_refl hi))
  have swapped : (if s.1 + 1 ≠ hi then swapAt s.2 (s.1 + 1) hi else s.2) =
      swapAt s.2 (s.1 + 1) hi := by
    split
    next => rfl
    next same =>
      rw [not_not.mp same, swapAt_eq, Equiv.swap_self]
      rfl
  rw [swapped]
  refine ⟨by omega, by omega, ?_, ?_, ?_⟩
  · refine (scanned.rearranged.widen (le_refl lo) (by omega) (by omega)).trans ?_
    exact Micron.Lib.Rearranged.swap (by omega) (by omega) (by omega) (by omega)
  · intro x lowX highX
    rw [swapAt_left, swapAt_of_ne (by omega) (by omega), last]
    exact scanned.below x lowX (by omega)
  · intro x lowX highX
    rw [swapAt_left, last]
    by_cases atEnd : x = hi
    · by_cases same : s.1 + 1 = hi
      · omega
      · rw [atEnd, swapAt_right]
        exact scanned.above (s.1 + 1) (by omega) (by omega)
    · rw [swapAt_of_ne (by omega) atEnd]
      exact scanned.above x (by omega) (by omega)

theorem qSplit_split (lt : α → α → Bool) (less : lo < hi) (a : Int → α) :
    Split lt lo hi a (qSplit lt lo hi a).1 (qSplit lt lo hi a).2 := by
  unfold qSplit
  have first : Rearranged lo (hi + 1) a (if hi - lo ≥ 2 then qMed3ToHigh lt lo hi a else a) := by
    split
    · exact qMed3ToHigh_rearranged lt (by omega) a
    · exact Rearranged.refl _ _ _
  generalize (if hi - lo ≥ 2 then qMed3ToHigh lt lo hi a else a) = c at first
  have split := qPartition_split lt less c
  exact ⟨split.low, split.high, first.trans split.rearranged, split.below, split.above⟩

/-- Rearranging the parts leaves the pivot between them. -/
theorem Split.parts {p : Int} {c : Int → α} (split : Split lt lo hi a p b)
    (left : Rearranged lo p b c) {d : Int → α} (right : Rearranged (p + 1) (hi + 1) c d) :
    Split lt lo hi a p d := by
  have low := split.low
  have high := split.high
  have pivot : d p = b p := by
    rw [right.outside p (by omega), left.outside p (by omega)]
  refine ⟨low, high, ?_, ?_, ?_⟩
  · refine split.rearranged.trans ?_
    refine (left.widen (le_refl lo) low (by omega)).trans ?_
    exact right.widen (by omega) (by omega) (le_refl _)
  · intro x lowX highX
    rw [pivot, right.outside x (by omega)]
    exact left.all (P := fun v => lt v (b p) = true) split.below x lowX highX
  · intro x lowX highX
    rw [pivot]
    refine right.all (P := fun v => lt v (b p) = false) ?_ x (by omega) (by omega)
    intro i lowI highI
    rw [left.outside i (by omega)]
    exact split.above i (by omega) (by omega)

section Weak
variable [IsStrictWeakOrder α (Lesser lt)]

/-- Ordered parts around the pivot make an ordered range. -/
theorem Split.ordered {p : Int} (split : Split lt lo hi a p b) (left : Ordered lt lo p b)
    (right : Ordered lt (p + 1) (hi + 1) b) : Ordered lt lo (hi + 1) b := by
  intro i j low less high
  rcases lt_trichotomy i p with belowI | atI | aboveI
  · rcases lt_trichotomy j p with belowJ | atJ | aboveJ
    · exact left i j low less belowJ
    · rw [atJ]
      exact comp_asymm (split.below i low belowI)
    · exact comp_trans_false (split.above j aboveJ (by omega)) (comp_asymm (split.below i low belowI))
  · rw [atI]
    exact split.above j (by omega) (by omega)
  · exact right i j (by omega) less high

theorem quickRange_sorts (lo hi : Int) (a : Int → α) (le : lo ≤ hi + 1) :
    Rearranged lo (hi + 1) a (quickRange lt lo hi a) ∧
      Ordered lt lo (hi + 1) (quickRange lt lo hi a) := by
  induction measured : (hi - lo).toNat using Nat.strong_induction_on generalizing lo hi a with
  | _ m ih =>
    -- a part is sorted by a call, or has one element at most
    have part : ∀ lo' hi' c, lo' ≤ hi' + 1 → (hi' - lo').toNat < m →
        Rearranged lo' (hi' + 1) c (if lo' < hi' then quickRange lt lo' hi' c else c) ∧
          Ordered lt lo' (hi' + 1) (if lo' < hi' then quickRange lt lo' hi' c else c) := by
      intro lo' hi' c le' smaller
      split
      · exact ih _ smaller lo' hi' c le' rfl
      · exact ⟨Rearranged.refl _ _ _, Ordered.of_short (by omega)⟩
    rw [quickRange]
    split
    next less =>
      have split := qSplit_split lt less a
      have low := split.low
      have high := split.high
      dsimp only
      generalize (qSplit lt lo hi a).1 = p at *
      generalize (qSplit lt lo hi a).2 = b at *
      split
      next =>
        obtain ⟨left, leftOrdered⟩ := part lo (p - 1) b (by omega) (by omega)
        rw [sub_add_cancel] at left leftOrdered
        generalize (if lo < p - 1 then quickRange lt lo (p - 1) b else b) = c at left leftOrdered
        obtain ⟨right, rightOrdered⟩ := ih _ (by omega) (p + 1) hi c (by omega) rfl
        have done := split.parts left right
        refine ⟨done.rearranged, done.ordered ?_ rightOrdered⟩
        intro i j lowI less highJ
        rw [right.outside i (by omega), right.outside j (by omega)]
        exact leftOrdered i j lowI less highJ
      next =>
        obtain ⟨right, rightOrdered⟩ := part (p + 1) hi b (by omega) (by omega)
        generalize (if p + 1 < hi then quickRange lt (p + 1) hi b else b) = c at right rightOrdered
        obtain ⟨left, leftOrdered⟩ := ih _ (by omega) lo (p - 1) c (by omega) rfl
        rw [sub_add_cancel] at left leftOrdered
        have first := split.parts (Rearranged.refl lo p b) right
        have done := first.parts left (Rearranged.refl (p + 1) (hi + 1) _)
        refine ⟨done.rearranged, done.ordered leftOrdered ?_⟩
        intro i j lowI less highJ
        rw [left.outside i (by omega), left.outside j (by omega)]
        exact rightOrdered i j lowI less highJ
    next => exact ⟨Rearranged.refl _ _ _, Ordered.of_short (by omega)⟩

theorem quick_sorts {n : Int} (low : 0 ≤ n) (a : Int → α) : Sorts lt n a (quick lt n a) := by
  rw [quick]
  split
  next =>
    obtain ⟨rearranged, ordered⟩ := @quickRange_sorts _ lt _ 0 (n - 1) a (by omega)
    rw [sub_add_cancel] at rearranged ordered
    exact ⟨rearranged, ordered⟩
  next => exact ⟨Rearranged.refl _ _ _, Ordered.of_short (by omega)⟩

end Weak

/-! ## Introsort -/

theorem sift_rearranged (lt : α → α → Bool) (lo : Int) (root cnt : Nat) (a : Int → α) :
    Rearranged lo (lo + cnt) a (sift lt lo root cnt a) := by
  induction measured : cnt - root using Nat.strong_induction_on generalizing root a with
  | _ m ih =>
    rw [sift]
    split
    next => exact Rearranged.refl _ _ _
    next inside =>
      dsimp only
      have bounds : root < (if 2 * root + 1 + 1 < cnt ∧
          lt (a (lo + (2 * root + 1 : Nat))) (a (lo + (2 * root + 1 + 1 : Nat)))
          then 2 * root + 1 + 1 else 2 * root + 1) ∧ (if 2 * root + 1 + 1 < cnt ∧
          lt (a (lo + (2 * root + 1 : Nat))) (a (lo + (2 * root + 1 + 1 : Nat)))
          then 2 * root + 1 + 1 else 2 * root + 1) < cnt := by
        split <;> omega
      generalize (if 2 * root + 1 + 1 < cnt ∧
          lt (a (lo + (2 * root + 1 : Nat))) (a (lo + (2 * root + 1 + 1 : Nat)))
          then 2 * root + 1 + 1 else 2 * root + 1) = child at bounds ⊢
      split
      next =>
        refine Rearranged.trans ?_ (ih _ (by omega) child _ rfl)
        exact Micron.Lib.Rearranged.swap (by omega) (by omega) (by omega) (by omega)
      next => exact Rearranged.refl _ _ _

theorem drainRange_rearranged (lt : α → α → Bool) (lo : Int) (cnt : Nat) (a : Int → α) :
    Rearranged lo (lo + cnt) a (drainRange lt lo cnt a) := by
  induction cnt generalizing a with
  | zero => exact Rearranged.refl _ _ _
  | succ cnt ih =>
    cases cnt with
    | zero => exact Rearranged.refl _ _ _
    | succ cnt =>
      have swapped : Rearranged lo (lo + (cnt + 1 + 1 : Nat)) a
          (swapAt a lo (lo + (cnt + 1 : Nat))) :=
        Micron.Lib.Rearranged.swap (le_refl lo) (by omega) (by omega) (by omega)
      have sifted := sift_rearranged lt lo 0 (cnt + 1) (swapAt a lo (lo + (cnt + 1 : Nat)))
      have rest := ih (sift lt lo 0 (cnt + 1) (swapAt a lo (lo + (cnt + 1 : Nat))))
      exact swapped.trans ((sifted.trans rest).widen (le_refl lo) (by omega) (by omega))

theorem heapRange_rearranged (lt : α → α → Bool) (le : lo ≤ hi) (a : Int → α) :
    Rearranged lo (hi + 1) a (heapRange lt lo hi a) := by
  have total : lo + ((hi - lo + 1).toNat : Int) = hi + 1 := by omega
  have build : ∀ roots : List Nat, Rearranged lo (lo + ((hi - lo + 1).toNat : Int)) a
      (roots.foldr (fun start a => sift lt lo start (hi - lo + 1).toNat a) a) := by
    intro roots
    induction roots with
    | nil => exact Rearranged.refl _ _ _
    | cons root roots ih => exact ih.trans (sift_rearranged lt lo root _ _)
  rw [← total]
  exact (build _).trans (drainRange_rearranged lt lo _ _)

theorem introsort_rearranged (lt : α → α → Bool) (depth : Nat) (lo hi : Int) (a : Int → α)
    (le : lo ≤ hi + 1) : Rearranged lo (hi + 1) a (introsort lt depth lo hi a) := by
  induction depth generalizing lo hi a with
  | zero =>
    rw [introsort]
    split
    · exact heapRange_rearranged lt (by omega) a
    · exact Rearranged.refl _ _ _
  | succ depth ih =>
    have part : ∀ lo' hi' c, lo' ≤ hi' + 1 →
        Rearranged lo' (hi' + 1) c (if lo' < hi' then introsort lt depth lo' hi' c else c) := by
      intro lo' hi' c le'
      split
      · exact ih lo' hi' c le'
      · exact Rearranged.refl _ _ _
    rw [introsort]
    split
    next long =>
      have split := qSplit_split lt (by omega : lo < hi) a
      have low := split.low
      have high := split.high
      dsimp only
      generalize (qSplit lt lo hi a).1 = p at *
      generalize (qSplit lt lo hi a).2 = b at *
      split
      next =>
        have left := part lo (p - 1) b (by omega)
        rw [sub_add_cancel] at left
        exact (split.parts left (ih (p + 1) hi _ (by omega))).rearranged
      next =>
        have right := part (p + 1) hi b (by omega)
        have left := ih lo (p - 1) (if p + 1 < hi then introsort lt depth (p + 1) hi b else b)
          (by omega)
        rw [sub_add_cancel] at left
        have first := split.parts (Rearranged.refl lo p b) right
        exact (first.parts left (Rearranged.refl (p + 1) (hi + 1) _)).rearranged
    next => exact Rearranged.refl _ _ _

/-- Introsort rearranges, and the insertion sort after it sorts. -/
theorem sort_sorts [IsStrictWeakOrder α (Lesser lt)] (n : Nat) (a : Int → α) :
    Sorts lt n a (sort lt n a) := by
  rw [sort]
  split
  next short => exact ⟨Rearranged.refl _ _ _, Ordered.of_short (by omega)⟩
  next long =>
    have first := introsort_rearranged lt (depthOf n) 0 (n - 1) a (by omega)
    rw [sub_add_cancel] at first
    have final := @insertion_sorts _ lt _ n (by omega)
      (introsort lt (depthOf n) 0 (n - 1) a)
    exact ⟨first.trans final.rearranged, final.ordered⟩

end Micron.Sort

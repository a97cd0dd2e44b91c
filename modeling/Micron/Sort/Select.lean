import Micron.Sort.Quick

/-!
# Selection

`nth_element`, `quickselect` and `partial_sort` narrow a range around the wanted rank with
the partition of quick sort.  Ranks are words that the source casts to signed.
-/

set_option autoImplicit false

namespace Micron.Sort

open Micron.Lib List Bool Int

variable {α : Type} (lt : α → α → Bool)

def castMax (k : Nat) : Int := (k : Int).bmod (2 ^ 64)

def quickselectRange (lo hi k : Int) (a : Int → α) : Int → α :=
  if lo < hi then
    let p := (qSplit lt lo hi a).1
    let b := (qSplit lt lo hi a).2
    if k = p then b
    else if k < p then quickselectRange lo (p - 1) k b
    else quickselectRange (p + 1) hi k b
  else a
termination_by (hi - lo).toNat
decreasing_by
  all_goals
    have bounds := qSplit_bounds lt ‹lo < hi› a
    omega

def nthElement (n k : Nat) (a : Int → α) : Int → α :=
  if n < 2 ∨ castMax k ≥ n then a else quickselectRange lt 0 (n - 1) (castMax k) a

/-- The element that is returned, and the array it is taken from. -/
def quickselect (n k : Nat) (a : Int → α) : α × (Int → α) :=
  let kk := if k < n then k else if n ≠ 0 then n - 1 else 0
  (nthElement lt n kk a kk, nthElement lt n kk a)

def partialSort (n k : Nat) (a : Int → α) : Int → α :=
  let m := if castMax k < n then castMax k else n
  if m < 1 ∨ n < 2 then a
  else quickRange lt 0 (m - 1) (if m < n then quickselectRange lt 0 (n - 1) (m - 1) a else a)

theorem castMax_of_lt {k : Nat} (small : k < 2 ^ 63) : castMax k = k := by
  refine bmod_eq_of_le ?_ ?_
  · omega
  · omega

variable {lt}

/-- A range whose place `k` parts the elements that are not greater from those that are not
less. -/
structure Placed (lt : α → α → Bool) (lo hi k : Int) (a b : Int → α) : Prop where
  rearranged : Rearranged lo hi a b
  below : ∀ x, lo ≤ x → x < k → lt (b k) (b x) = false
  above : ∀ x, k < x → x < hi → lt (b x) (b k) = false

section Weak
variable [IsStrictWeakOrder α (Lesser lt)] {lo hi p k : Int} {a b c : Int → α}

theorem Split.placed (split : Split lt lo hi a p b) : Placed lt lo (hi + 1) p a b where
  rearranged := split.rearranged
  below x low high := comp_asymm (split.below x low high)
  above x low high := split.above x low (by omega)

theorem Split.placed_left (split : Split lt lo hi a p b) (before : k < p) (low : lo ≤ k)
    (placed : Placed lt lo p k b c) : Placed lt lo (hi + 1) k a c := by
  have whole := split.parts placed.rearranged (Rearranged.refl (p + 1) (hi + 1) c)
  refine ⟨whole.rearranged, placed.below, ?_⟩
  intro x lowX highX
  have pivot : lt (c p) (c k) = false := comp_asymm (whole.below k low before)
  rcases lt_trichotomy x p with left | same | right
  · exact placed.above x lowX left
  · rw [same]
    exact pivot
  · exact comp_trans_false (whole.above x right (by omega)) pivot

theorem Split.placed_right (split : Split lt lo hi a p b) (after : p < k) (high : k ≤ hi)
    (placed : Placed lt (p + 1) (hi + 1) k b c) : Placed lt lo (hi + 1) k a c := by
  have whole := split.parts (Rearranged.refl lo p b) placed.rearranged
  refine ⟨whole.rearranged, ?_, placed.above⟩
  intro x lowX highX
  have pivot : lt (c k) (c p) = false := whole.above k after high
  rcases lt_trichotomy x p with left | same | right
  · exact comp_trans_false pivot (comp_asymm (whole.below x lowX left))
  · rw [same]
    exact pivot
  · exact placed.below x (by omega) highX

theorem quickselectRange_placed (lo hi k : Int) (a : Int → α) (low : lo ≤ k) (high : k ≤ hi) :
    Placed lt lo (hi + 1) k a (quickselectRange lt lo hi k a) := by
  induction measured : (hi - lo).toNat using Nat.strong_induction_on generalizing lo hi a with
  | _ m ih =>
    rw [quickselectRange]
    split
    next less =>
      have split := qSplit_split lt less a
      have lowP := split.low
      have highP := split.high
      generalize (qSplit lt lo hi a).1 = p at *
      generalize (qSplit lt lo hi a).2 = b at *
      rcases lt_trichotomy k p with left | same | right
      · rw [if_neg (ne_of_lt left), if_pos left]
        have placed := ih _ (by omega) lo (p - 1) b low (by omega) rfl
        rw [sub_add_cancel] at placed
        exact split.placed_left left low placed
      · rw [if_pos same, same]
        exact split.placed
      · rw [if_neg (ne_of_gt right), if_neg (not_lt.mpr (le_of_lt right))]
        exact split.placed_right right high (ih _ (by omega) (p + 1) hi b (by omega) high rfl)
    next single =>
      refine ⟨Rearranged.refl _ _ _, ?_, ?_⟩
      · intro x lowX highX
        omega
      · intro x lowX highX
        omega

/-- Of the elements that a predicate holds for none is where it fails. -/
theorem countP_cells_le {P : α → Bool} {lo mid hi : Int} (low : lo ≤ mid) (high : mid ≤ hi)
    (fails : ∀ x, mid ≤ x → x < hi → P (a x) = false) :
    (cells lo hi a).countP P ≤ (mid - lo).toNat := by
  have none : (cells mid hi a).countP P = 0 := by
    rw [countP_eq_zero]
    intro v member
    obtain ⟨x, lowX, highX, rfl⟩ := mem_cells.mp member
    rw [fails x lowX highX]
    exact false_ne_true
  rw [cells_append low high, countP_append, none, add_zero, ← length_cells (a := a)]
  exact countP_le_length

theorem le_countP_cells {P : α → Bool} {lo mid hi : Int} (low : lo ≤ mid) (high : mid ≤ hi)
    (holds : ∀ x, lo ≤ x → x < mid → P (a x) = true) :
    (mid - lo).toNat ≤ (cells lo hi a).countP P := by
  have all : (cells lo mid a).countP P = (cells lo mid a).length := by
    rw [countP_eq_length]
    intro v member
    obtain ⟨x, lowX, highX, rfl⟩ := mem_cells.mp member
    exact holds x lowX highX
  rw [cells_append low high, countP_append, all, length_cells]
  exact Nat.le_add_right _ _

/-- Less elements than a rank can not be more than the rank. -/
theorem Placed.tied {n : Int} (placed : Placed lt 0 n k a b) (low : 0 ≤ k) (high : k < n)
    (sorts : Sorts lt n a c) : Tied (Lesser lt) (b k) (c k) := by
  have perm := placed.rearranged.perm.trans sorts.rearranged.perm.symm
  have ordered : ∀ x y, 0 ≤ x → x ≤ y → y < n → lt (c y) (c x) = false := by
    intro x y lowX le highY
    rcases lt_or_eq_of_le le with less | same
    · exact sorts.ordered x y lowX less highY
    · rw [same]
      exact comp_irrefl _
  refine ⟨fun less => ?_, fun less => ?_⟩
  · have many := @le_countP_cells _ b (fun v => !lt (b k) v) 0 (k + 1) n (by omega) (by omega) (by
        intro x lowX highX
        rw [not_eq_true']
        rcases lt_or_eq_of_le (le_of_lt_add_one highX) with before | same
        · exact placed.below x lowX before
        · rw [same]
          exact comp_irrefl _)
    have few := countP_cells_le (a := c) (P := fun v => !lt (b k) v) low (le_of_lt high) (by
      intro x lowX highX
      rw [not_eq_false']
      exact weak_of_lt_of_not_lt (r := Lesser lt) less
        (eq_false_iff.mp (ordered k x low lowX highX)))
    rw [perm.countP_eq] at many
    omega
  · have few := countP_cells_le (a := b) (P := fun v => lt v (b k)) low (le_of_lt high) (by
      intro x lowX highX
      rcases lt_or_eq_of_le lowX with after | same
      · exact placed.above x after highX
      · rw [same]
        exact comp_irrefl _)
    have many := @le_countP_cells _ c (fun v => lt v (b k)) 0 (k + 1) n (by omega) (by omega) (by
        intro x lowX highX
        exact weak_of_not_lt_of_lt (r := Lesser lt)
          (eq_false_iff.mp (ordered x k lowX (le_of_lt_add_one highX) high)) less)
    rw [perm.countP_eq] at few
    omega

theorem nthElement_placed {n k : Nat} (small : n < 2 ^ 63) (inside : k < n) (a : Int → α) :
    Placed lt 0 n k a (nthElement lt n k a) := by
  rw [nthElement, castMax_of_lt (by omega)]
  by_cases two : n < 2
  · rw [if_pos (.inl two)]
    refine ⟨Rearranged.refl _ _ _, ?_, ?_⟩
    · intro x low high
      omega
    · intro x low high
      omega
  · rw [if_neg (by omega)]
    have placed := @quickselectRange_placed _ lt _ 0 (n - 1) k a (by omega) (by omega)
    rwa [sub_add_cancel] at placed

/-- The front is sorted, and nothing behind it is less than anything in it. -/
structure Front (lt : α → α → Bool) (n m : Int) (a b : Int → α) : Prop where
  rearranged : Rearranged 0 n a b
  ordered : Ordered lt 0 m b
  behind : ∀ i j, 0 ≤ i → i < m → m ≤ j → j < n → lt (b j) (b i) = false

theorem partialSort_front {n k : Nat} (small : n < 2 ^ 63) (below : k < 2 ^ 63) (a : Int → α) :
    Front lt n (min k n : Nat) a (partialSort lt n k a) := by
  have wanted : (if castMax k < n then castMax k else (n : Int)) = (min k n : Nat) := by
    rw [castMax_of_lt below]
    split <;> omega
  rw [partialSort, wanted]
  have le : min k n ≤ n := min_le_right k n
  generalize min k n = m at le
  by_cases short : (m : Int) < 1 ∨ n < 2
  · rw [if_pos short]
    refine ⟨Rearranged.refl _ _ _, Ordered.of_short (by omega), ?_⟩
    intro i j low high low' high'
    omega
  · rw [if_neg short]
    by_cases part : (m : Int) < n
    · rw [if_pos part]
      have placed := @quickselectRange_placed _ lt _ 0 (n - 1) (m - 1) a (by omega) (by omega)
      rw [sub_add_cancel] at placed
      generalize quickselectRange lt 0 (n - 1) (m - 1) a = b at placed
      obtain ⟨sorted, ordered⟩ := @quickRange_sorts _ lt _ 0 ((m : Int) - 1) b (by omega)
      rw [sub_add_cancel] at sorted ordered
      generalize quickRange lt 0 ((m : Int) - 1) b = c at sorted ordered
      refine ⟨placed.rearranged.trans (sorted.widen (le_refl 0) (by omega) (by omega)),
        ordered, ?_⟩
      intro i j low high low' high'
      rw [sorted.outside j (.inr low')]
      refine sorted.all (P := fun v => lt (b j) v = false) ?_ i low high
      intro x lowX highX
      have last : lt (b j) (b (m - 1)) = false := placed.above j (by omega) high'
      rcases lt_or_eq_of_le (le_sub_one_of_lt highX) with before | same
      · exact comp_trans_false last (placed.below x lowX before)
      · rw [same]
        exact last
    · rw [if_neg part]
      have all : m = n := by omega
      obtain ⟨sorted, ordered⟩ := @quickRange_sorts _ lt _ 0 ((m : Int) - 1) a (by omega)
      rw [sub_add_cancel] at sorted ordered
      rw [all] at sorted ordered ⊢
      refine ⟨sorted, ordered, ?_⟩
      intro i j low high low' high'
      omega

end Weak

/-- Selection puts the element of a full sort in its place with the others on their sides, and
the partial sort leaves the least elements in order at the front. -/
theorem selection_exact {α : Type} (lt : α → α → Bool) [IsStrictWeakOrder α (Lesser lt)] {n : Nat}
    (small : n < 2 ^ 63) (a : Int → α) :
    (∀ k, k < n → Placed lt 0 n k a (nthElement lt n k a) ∧
      quickselect lt n k a = (nthElement lt n k a k, nthElement lt n k a) ∧
      ∀ c, Sorts lt n a c → Tied (Lesser lt) (nthElement lt n k a k) (c k)) ∧
    ∀ k, k < 2 ^ 63 → Front lt n (min k n : Nat) a (partialSort lt n k a) := by
  refine ⟨?_, fun k below => partialSort_front small below a⟩
  intro k inside
  have placed := @nthElement_placed _ lt _ n k small inside a
  refine ⟨placed, ?_, fun c sorts => placed.tied (by omega) (by omega) sorts⟩
  rw [quickselect, if_pos inside]

theorem selection_exact_equal :
    quickselect (fun x y : Nat => decide (x < y)) 3 1 (fun _ => 4) =
        (nthElement (fun x y : Nat => decide (x < y)) 3 1 (fun _ => 4) 1,
          nthElement (fun x y : Nat => decide (x < y)) 3 1 (fun _ => 4)) ∧
      Front (fun x y : Nat => decide (x < y)) 3 2 (fun i => (7 - i).toNat)
        (partialSort (fun x y : Nat => decide (x < y)) 3 2 fun i => (7 - i).toNat) :=
  ⟨((selection_exact (fun x y : Nat => decide (x < y)) (by decide) _).1 1 (by decide)).2.1,
    (selection_exact (fun x y : Nat => decide (x < y)) (by decide) _).2 2 (by decide)⟩

end Micron.Sort

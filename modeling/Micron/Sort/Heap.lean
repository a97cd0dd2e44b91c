import Micron.Sort.Model

/-!
# Heap sort
-/

set_option autoImplicit false

namespace Micron.Sort

open Micron.Lib List Nat

variable {α : Type} {lt : α → α → Bool} {a b : Int → α} {s root n N : Nat}

/-- From `s` on no parent compares less than a child. -/
def HeapFrom (lt : α → α → Bool) (s n : Nat) (a : Int → α) : Prop :=
  ∀ k c : Nat, s ≤ k → c < n → (c = 2 * k + 1 ∨ c = 2 * k + 2) → lt (a k) (a c) = false

/-- A heap but for `root`, which may compare less than its children. -/
structure HeapBut (lt : α → α → Bool) (s root n : Nat) (a : Int → α) : Prop where
  low : s ≤ root
  others : ∀ k c : Nat, s ≤ k → k ≠ root → c < n → (c = 2 * k + 1 ∨ c = 2 * k + 2) →
    lt (a k) (a c) = false
  above : ∀ p c : Nat, s ≤ p → (root = 2 * p + 1 ∨ root = 2 * p + 2) → c < n →
    (c = 2 * root + 1 ∨ c = 2 * root + 2) → lt (a p) (a c) = false

section Weak
variable [IsStrictWeakOrder α (Lesser lt)]

theorem greatest_spec (a : Int → α) (inside : 2 * root + 1 < n) :
    (greatest lt a root n = root ∨ (greatest lt a root n = 2 * root + 1 ∨
        greatest lt a root n = 2 * root + 2) ∧ greatest lt a root n < n ∧
      lt (a root) (a (greatest lt a root n)) = true) ∧
    ∀ c : Nat, c < n → (c = 2 * root + 1 ∨ c = 2 * root + 2) →
      lt (a (greatest lt a root n)) (a c) = false := by
  unfold greatest
  dsimp only
  have first : ∃ f : Nat, (if lt (a root) (a (2 * root + 1 : Nat)) then 2 * root + 1 else root) = f ∧
      (f = root ∨ f = 2 * root + 1 ∧ lt (a root) (a f) = true) ∧
      lt (a f) (a (2 * root + 1 : Nat)) = false := by
    split
    next less => exact ⟨2 * root + 1, rfl, .inr ⟨rfl, less⟩, comp_irrefl _⟩
    next notLess => exact ⟨root, rfl, .inl rfl, Bool.eq_false_iff.mpr notLess⟩
  obtain ⟨f, equal, place, left⟩ := first
  rw [equal]
  split
  next right =>
    refine ⟨.inr ⟨.inr (by omega), right.1, ?_⟩, ?_⟩
    · rcases place with rfl | ⟨_, less⟩
      · exact right.2
      · exact weak_trans (r := Lesser lt) less right.2
    · rintro c _ (rfl | rfl)
      · exact comp_trans_false (comp_asymm right.2) left
      · exact comp_irrefl _
  next notRight =>
    refine ⟨?_, ?_⟩
    · rcases place with same | ⟨child, less⟩
      · exact .inl same
      · exact .inr ⟨.inl child, by omega, less⟩
    · rintro c high (rfl | rfl)
      · exact left
      · exact Bool.eq_false_iff.mpr fun less => notRight ⟨high, less⟩

theorem HeapBut.swap (heap : HeapBut lt s root n a) {g : Nat}
    (child : g = 2 * root + 1 ∨ g = 2 * root + 2) (less : lt (a root) (a g) = true)
    (most : ∀ c : Nat, c < n → (c = 2 * root + 1 ∨ c = 2 * root + 2) → lt (a g) (a c) = false) (high : g < n) :
    HeapBut lt s g n (swapAt a root g) := by
  have low := heap.low
  refine ⟨by omega, ?_, ?_⟩
  · intro k c lowK notG highC childC
    by_cases atRoot : k = root
    · subst atRoot
      rw [swapAt_left]
      by_cases same : c = g
      · rw [same, swapAt_right]
        exact comp_asymm less
      · rw [swapAt_of_ne (by omega) (by omega)]
        exact most c highC childC
    · rw [swapAt_of_ne (by omega) (by omega)]
      by_cases same : c = root
      · rw [same, swapAt_left]
        exact heap.above k g lowK (same ▸ childC) high child
      · rw [swapAt_of_ne (by omega) (by omega)]
        exact heap.others k c lowK atRoot highC childC
  · intro p c lowP parent highC childC
    have same : p = root := by omega
    subst same
    rw [swapAt_left, swapAt_of_ne (by omega) (by omega)]
    exact heap.others g c (by omega) (by omega) highC childC

theorem siftDown_heap (heap : HeapBut lt s root n a) : HeapFrom lt s n (siftDown lt a root n) := by
  induction measured : n - root using Nat.strong_induction_on generalizing root a with
  | _ m ih =>
    rw [siftDown]
    split
    next childless =>
      intro k c low high child
      by_cases atRoot : k = root
      · omega
      · exact heap.others k c low atRoot high child
    next inside =>
      obtain ⟨place, most⟩ := @greatest_spec _ lt _ _ _ a (Nat.lt_of_not_le inside)
      generalize greatest lt a root n = g at place most ⊢
      split
      next stays =>
        rw [stays] at most
        intro k c low high child
        by_cases atRoot : k = root
        · rw [atRoot] at child ⊢
          exact most c high child
        · exact heap.others k c low atRoot high child
      next moves =>
        obtain ⟨child, high, less⟩ := place.resolve_left moves
        exact ih _ (by omega) (heap.swap child less most high) rfl

omit [IsStrictWeakOrder α (Lesser lt)] in
theorem siftDown_rearranged (lt : α → α → Bool) (a : Int → α) (low : root < n) :
    Rearranged 0 n a (siftDown lt a root n) := by
  induction measured : n - root using Nat.strong_induction_on generalizing root a with
  | _ m ih =>
    rw [siftDown]
    split
    next => exact Rearranged.refl _ _ _
    next inside =>
      split
      next => exact Rearranged.refl _ _ _
      next moves =>
        have below := (greatest_cases lt a (Nat.lt_of_not_le inside)).resolve_left moves
        refine Rearranged.trans ?_ (ih _ (by omega) _ below.2 rfl)
        exact Rearranged.swap (by omega) (by omega) (by omega) (by omega)

theorem makeHeap_heap (n : Nat) (a : Int → α) :
    Rearranged 0 n a (makeHeap lt n a) ∧ HeapFrom lt 0 n (makeHeap lt n a) := by
  have build : ∀ m : Nat, ∀ b, 2 * m ≤ n → HeapFrom lt m n b →
      Rearranged 0 n b ((List.range m).foldr (fun i a => siftDown lt a i n) b) ∧
        HeapFrom lt 0 n ((List.range m).foldr (fun i a => siftDown lt a i n) b) := by
    intro m
    induction m with
    | zero =>
      intro b _ heap
      exact ⟨Rearranged.refl _ _ _, heap⟩
    | succ m ih =>
      intro b bound heap
      rw [range_succ, foldr_append, foldr_cons, foldr_nil]
      have but : HeapBut lt m m n b := by
        refine ⟨le_refl m, ?_, ?_⟩
        · intro k c low notRoot
          exact heap k c (by omega)
        · intro p c low parent
          omega
      obtain ⟨rest, final⟩ := ih (siftDown lt b m n) (by omega) (siftDown_heap but)
      exact ⟨(siftDown_rearranged lt b (by omega)).trans rest, final⟩
  rw [makeHeap]
  split
  next short =>
    refine ⟨Rearranged.refl _ _ _, ?_⟩
    intro k c low high child
    omega
  next =>
    refine build (n / 2) a (by omega) ?_
    intro k c low high child
    omega

theorem HeapFrom.root_greatest (heap : HeapFrom lt 0 n a) (k : Nat) (low : k < n) :
    lt (a 0) (a k) = false := by
  induction k using Nat.strong_induction_on with
  | _ k ih =>
    by_cases top : k = 0
    · rw [top]
      exact comp_irrefl _
    · have parent := heap ((k - 1) / 2) k (zero_le _) low (by omega)
      exact comp_trans_false (ih ((k - 1) / 2) (by omega) (by omega)) parent

/-- A heap in front, and behind it in order what was taken from it. -/
structure Drained (lt : α → α → Bool) (n N : Nat) (a : Int → α) : Prop where
  heap : HeapFrom lt 0 n a
  between : ∀ x y : Int, 0 ≤ x → x < n → n ≤ y → y < N → lt (a y) (a x) = false
  ordered : Ordered lt n N a

theorem Drained.step (drained : Drained lt (n + 1) N a) (some : 0 < n) (_ : n < N) :
    Drained lt n N (siftDown lt (swapAt a 0 n) 0 n) := by
  have sifted := siftDown_rearranged lt (swapAt a 0 n) some
  have outside : ∀ y : Int, (n : Int) ≤ y → siftDown lt (swapAt a 0 n) 0 n y = swapAt a 0 n y :=
    fun y high => sifted.outside y (.inr high)
  have root : ∀ x : Int, 0 ≤ x → x < n → lt (a 0) (swapAt a 0 n x) = false := by
    intro x low high
    by_cases top : x = 0
    · rw [top, swapAt_left]
      exact drained.heap.root_greatest n (lt_succ_self n)
    · rw [swapAt_of_ne top (by omega)]
      have greatest := drained.heap.root_greatest x.toNat (by omega)
      rwa [show ((x.toNat : Nat) : Int) = x by omega] at greatest
  have later : ∀ x y : Int, 0 ≤ x → x ≤ n → (n : Int) < y → y < N →
      lt (a y) (a x) = false := by
    intro x y low high lowY highY
    exact drained.between x y low (by omega) (by omega) highY
  refine ⟨siftDown_heap ?_, ?_, ?_⟩
  · refine ⟨le_refl 0, ?_, ?_⟩
    · intro k c low notRoot high child
      rw [swapAt_of_ne (by omega) (by omega), swapAt_of_ne (by omega) (by omega)]
      exact drained.heap k c low (by omega) child
    · intro p c low parent
      omega
  · intro x y lowX highX lowY highY
    rw [outside y lowY]
    by_cases last : y = n
    · rw [last, swapAt_right]
      exact sifted.all (P := fun v => lt (a 0) v = false) root x lowX highX
    · rw [swapAt_of_ne (by omega) last]
      refine sifted.all (P := fun v => lt (a y) v = false) ?_ x lowX highX
      intro i low high
      by_cases top : i = 0
      · rw [top, swapAt_left]
        exact later n y (by omega) (le_refl _) (by omega) highY
      · rw [swapAt_of_ne top (by omega)]
        exact later i y low (by omega) (by omega) highY
  · intro i j low less high
    rw [outside i low, outside j (by omega), swapAt_of_ne (i := 0) (j := n) (x := j) (by omega) (by omega)]
    by_cases last : i = n
    · rw [last, swapAt_right]
      exact later 0 j (le_refl 0) (by omega) (by omega) high
    · rw [swapAt_of_ne (by omega) last]
      exact drained.ordered i j (by omega) less high

theorem sortHeap_sorts (n : Nat) (a : Int → α) (bound : n ≤ N) (drained : Drained lt n N a) :
    Rearranged 0 N a (sortHeap lt n a) ∧ Ordered lt 0 N (sortHeap lt n a) := by
  have short : ∀ m : Nat, m ≤ 1 → ∀ a, Drained lt m N a → Ordered lt 0 N a := by
    intro m le a drained i j low less high
    by_cases front : i < m
    · exact drained.between i j low front (by omega) high
    · exact drained.ordered i j (by omega) less high
  induction n generalizing a with
  | zero => exact ⟨Rearranged.refl _ _ _, short 0 (zero_le 1) a drained⟩
  | succ n ih =>
    cases n with
    | zero => exact ⟨Rearranged.refl _ _ _, short 1 (le_refl 1) a drained⟩
    | succ n =>
      rw [sortHeap]
      have step := drained.step (by omega) (by omega)
      obtain ⟨rest, ordered⟩ := ih _ (by omega) step
      refine ⟨?_, ordered⟩
      have swapped : Rearranged 0 N a (swapAt a 0 (n + 1 : Nat)) :=
        Rearranged.swap (by omega) (by omega) (by omega) (by omega)
      have sifted := siftDown_rearranged lt (swapAt a 0 (n + 1 : Nat)) (by omega : 0 < n + 1)
      exact swapped.trans ((sifted.widen (le_refl 0) (by omega) (by omega)).trans rest)

theorem heap_sorts (n : Nat) (a : Int → α) : Sorts lt n a (heap lt n a) := by
  obtain ⟨built, isHeap⟩ := @makeHeap_heap _ lt _ n a
  have drained : Drained lt n n (makeHeap lt n a) :=
    ⟨isHeap, fun x y _ _ low high => by omega, Ordered.of_short (by omega)⟩
  obtain ⟨rest, ordered⟩ := sortHeap_sorts n (makeHeap lt n a) (le_refl n) drained
  exact ⟨built.trans rest, ordered⟩

end Weak

end Micron.Sort

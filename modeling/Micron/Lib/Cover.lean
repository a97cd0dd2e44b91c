import Mathlib.Data.List.Chain

/-!
# Stretches that cover a range

`size` gives the stretches by their starts.  They cover the range from `lo` to `hi`
without overlap.  A stretch is cut in two, and two neighbours are joined.
-/

set_option autoImplicit false

namespace Micron.Lib

open Function

structure Cover (lo hi : Nat) (size : Nat → Option Nat) : Prop where
  positive : ∀ {a n}, size a = some n → 0 < n
  inside : ∀ {a n}, size a = some n → lo ≤ a ∧ a + n ≤ hi
  apart : ∀ {a b n m}, size a = some n → size b = some m → a < b → a + n ≤ b
  covered : ∀ u, lo ≤ u → u < hi → ∃ a n, size a = some n ∧ a ≤ u ∧ u < a + n

namespace Cover

variable {lo hi : Nat} {size : Nat → Option Nat} {a b n m u : Nat}

/-- No place is in two stretches. -/
theorem eq_of_mem (cover : Cover lo hi size) (isA : size a = some n) (isB : size b = some m)
    (lowA : a ≤ u) (highA : u < a + n) (lowB : b ≤ u) (highB : u < b + m) : a = b := by
  rcases lt_trichotomy a b with less | same | more
  · have := cover.apart isA isB less
    omega
  · exact same
  · have := cover.apart isB isA more
    omega

/-- Behind a stretch that does not end the range another one starts. -/
theorem next (cover : Cover lo hi size) (isA : size a = some n) (more : a + n ≠ hi) :
    ∃ m, size (a + n) = some m := by
  have inside := cover.inside isA
  obtain ⟨b, m, isB, low, high⟩ := cover.covered (a + n) (by omega) (by omega)
  have same : b = a + n := by
    rcases lt_trichotomy b a with less | same | after
    · have := cover.apart isB isA less
      omega
    · rw [same, isA] at isB
      obtain rfl := Option.some.inj isB
      omega
    · have := cover.apart isA isB after
      omega
  exact ⟨m, same ▸ isB⟩

/-- In front of a stretch that does not start the range another one ends. -/
theorem before (cover : Cover lo hi size) (isA : size a = some n) (more : a ≠ lo) :
    ∃ b m, size b = some m ∧ b + m = a := by
  have inside := cover.inside isA
  obtain ⟨b, m, isB, low, high⟩ := cover.covered (a - 1) (by omega) (by omega)
  refine ⟨b, m, isB, ?_⟩
  have := cover.apart isB isA (by omega)
  omega

/-- The stretches from one on, in order. -/
theorem path_from (cover : Cover lo hi size) : ∀ (fuel a : Nat), hi - a ≤ fuel →
    a = hi ∨ (∃ n, size a = some n) → ∃ l,
      (l ++ [hi]).IsChain (fun x y => ∃ n, size x = some n ∧ x + n = y) ∧
        (l ++ [hi]).head? = some a ∧ ∀ x, x ∈ l ↔ a ≤ x ∧ ∃ n, size x = some n := by
  have atEnd : ∀ a, a = hi → ∃ l : List Nat,
      (l ++ [hi]).IsChain (fun x y => ∃ n, size x = some n ∧ x + n = y) ∧
        (l ++ [hi]).head? = some a ∧ ∀ x, x ∈ l ↔ a ≤ x ∧ ∃ n, size x = some n := by
    intro a isEnd
    refine ⟨[], .singleton hi, by rw [isEnd]; rfl, ?_⟩
    intro x
    refine ⟨nofun, ?_⟩
    rintro ⟨low, n, isX⟩
    have := cover.inside isX
    have := cover.positive isX
    omega
  intro fuel
  induction fuel with
  | zero =>
    rintro a small (isEnd | ⟨n, isA⟩)
    · exact atEnd a isEnd
    · have := cover.inside isA
      have := cover.positive isA
      omega
  | succ fuel ih =>
    rintro a small (isEnd | ⟨n, isA⟩)
    · exact atEnd a isEnd
    · have inside := cover.inside isA
      have positive := cover.positive isA
      have follows : a + n = hi ∨ ∃ m, size (a + n) = some m :=
        (Classical.em (a + n = hi)).imp_right (cover.next isA)
      obtain ⟨l, chain, head, members⟩ := ih (a + n) (by omega) follows
      refine ⟨a :: l, ?_, rfl, ?_⟩
      · refine chain.cons fun y isHead => ⟨n, isA, ?_⟩
        rw [head] at isHead
        exact Option.some.inj isHead
      · intro x
        rw [List.mem_cons, members]
        constructor
        · rintro (rfl | ⟨low, isX⟩)
          · exact ⟨le_refl _, n, isA⟩
          · exact ⟨by omega, isX⟩
        · rintro ⟨low, k, isX⟩
          rcases eq_or_lt_of_le low with same | more
          · exact .inl same.symm
          · exact .inr ⟨cover.apart isA isX more, k, isX⟩

/-- All the stretches, in order. -/
theorem path (cover : Cover lo hi size) (le : lo ≤ hi) : ∃ l,
    (l ++ [hi]).IsChain (fun x y => ∃ n, size x = some n ∧ x + n = y) ∧
      (l ++ [hi]).head? = some lo ∧ ∀ x, x ∈ l ↔ ∃ n, size x = some n := by
  have start : lo = hi ∨ ∃ n, size lo = some n := by
    rcases eq_or_lt_of_le le with same | less
    · exact .inl same
    · obtain ⟨a, n, isA, low, _⟩ := cover.covered lo (le_refl lo) less
      obtain rfl : a = lo := le_antisymm low (cover.inside isA).1
      exact .inr ⟨n, isA⟩
  obtain ⟨l, chain, head, members⟩ := cover.path_from (hi - lo) lo (le_refl _) start
  refine ⟨l, chain, head, ?_⟩
  intro x
  rw [members]
  exact and_iff_right_of_imp fun ⟨_, isX⟩ => (cover.inside isX).1

theorem single (lo : Nat) (some_ : 0 < n) :
    Cover lo (lo + n) (update (fun _ => none) lo (some n)) := by
  have only : ∀ {a k}, update (fun _ => none) lo (some n) a = some k → a = lo ∧ k = n := by
    intro a k isA
    by_cases here : a = lo
    · rw [here, update_self] at isA
      exact ⟨here, (Option.some.inj isA).symm⟩
    · rw [update_of_ne here] at isA
      exact nomatch isA
  refine ⟨?_, ?_, ?_, ?_⟩
  · intro a k isA
    rw [(only isA).2]
    exact some_
  · intro a k isA
    obtain ⟨rfl, rfl⟩ := only isA
    exact ⟨le_refl _, le_refl _⟩
  · intro a b k j isA isB less
    rw [(only isA).1, (only isB).1] at less
    exact absurd less (lt_irrefl lo)
  · intro u low high
    exact ⟨lo, n, update_self .., low, high⟩

/-- A stretch is cut in two. -/
theorem cut (cover : Cover lo hi size) (isA : size a = some (n + m)) (someN : 0 < n) (someM : 0 < m) :
    Cover lo hi (update (update size a (some n)) (a + n) (some m)) := by
  have insideA := cover.inside isA
  have cases : ∀ {b k}, update (update size a (some n)) (a + n) (some m) b = some k →
      b = a ∧ k = n ∨ b = a + n ∧ k = m ∨ b ≠ a ∧ size b = some k := by
    intro b k isB
    by_cases second : b = a + n
    · rw [second, update_self] at isB
      exact .inr (.inl ⟨second, (Option.some.inj isB).symm⟩)
    · rw [update_of_ne second] at isB
      by_cases first : b = a
      · rw [first, update_self] at isB
        exact .inl ⟨first, (Option.some.inj isB).symm⟩
      · rw [update_of_ne first] at isB
        exact .inr (.inr ⟨first, isB⟩)
  -- a stretch of old lies before or behind the one that is cut
  have side : ∀ {b k}, b ≠ a → size b = some k → b + k ≤ a ∨ a + (n + m) ≤ b := by
    intro b k other isB
    rcases lt_or_gt_of_ne other with less | more
    · exact .inl (cover.apart isB isA less)
    · exact .inr (cover.apart isA isB more)
  refine ⟨?_, ?_, ?_, ?_⟩
  · intro b k isB
    rcases cases isB with ⟨_, rfl⟩ | ⟨_, rfl⟩ | ⟨_, old⟩
    · exact someN
    · exact someM
    · exact cover.positive old
  · intro b k isB
    rcases cases isB with ⟨rfl, rfl⟩ | ⟨rfl, rfl⟩ | ⟨_, old⟩
    · exact ⟨insideA.1, by omega⟩
    · exact ⟨by omega, by omega⟩
    · exact cover.inside old
  · intro b c k j isB isC less
    rcases cases isB with ⟨startB, sizeB⟩ | ⟨startB, sizeB⟩ | ⟨otherB, oldB⟩ <;>
      rcases cases isC with ⟨startC, sizeC⟩ | ⟨startC, sizeC⟩ | ⟨otherC, oldC⟩
    · omega
    · omega
    · have positive := cover.positive oldC
      rcases side otherC oldC with before | behind <;> omega
    · omega
    · omega
    · have positive := cover.positive oldC
      rcases side otherC oldC with before | behind <;> omega
    · rcases side otherB oldB with before | behind <;> omega
    · rcases side otherB oldB with before | behind <;> omega
    · exact cover.apart oldB oldC less
  · intro u low high
    obtain ⟨b, k, isB, lowB, highB⟩ := cover.covered u low high
    by_cases here : b = a
    · rw [here, isA] at isB
      obtain rfl := Option.some.inj isB
      by_cases upper : a + n ≤ u
      · exact ⟨a + n, m, update_self .., upper, by omega⟩
      · refine ⟨a, n, ?_, by omega, by omega⟩
        rw [update_of_ne (by omega), update_self]
    · refine ⟨b, k, ?_, lowB, highB⟩
      rw [update_of_ne, update_of_ne here]
      · exact isB
      · have positive := cover.positive isB
        rcases side here isB with before | behind <;> omega

/-- Two neighbours are joined. -/
theorem join (cover : Cover lo hi size) (isA : size a = some n) (isB : size (a + n) = some m) :
    Cover lo hi (update (update size (a + n) none) a (some (n + m))) := by
  have insideA := cover.inside isA
  have insideB := cover.inside isB
  have positiveA := cover.positive isA
  have cases : ∀ {c k}, update (update size (a + n) none) a (some (n + m)) c =
      some k → c = a ∧ k = n + m ∨ c ≠ a ∧ c ≠ a + n ∧ size c = some k := by
    intro c k isC
    by_cases first : c = a
    · rw [first, update_self] at isC
      exact .inl ⟨first, (Option.some.inj isC).symm⟩
    · rw [update_of_ne first] at isC
      by_cases second : c = a + n
      · rw [second, update_self] at isC
        exact nomatch isC
      · rw [update_of_ne second] at isC
        exact .inr ⟨first, second, isC⟩
  refine ⟨?_, ?_, ?_, ?_⟩
  · intro c k isC
    rcases cases isC with ⟨_, rfl⟩ | ⟨_, _, old⟩
    · omega
    · exact cover.positive old
  · intro c k isC
    rcases cases isC with ⟨rfl, rfl⟩ | ⟨_, _, old⟩
    · exact ⟨insideA.1, by omega⟩
    · exact cover.inside old
  · intro c d k j isC isD less
    rcases cases isC with ⟨rfl, rfl⟩ | ⟨otherC, _, oldC⟩
    · rcases cases isD with ⟨rfl, rfl⟩ | ⟨otherD, otherD', oldD⟩
      · exact absurd less (lt_irrefl _)
      · have first := cover.apart isA oldD less
        have second := cover.apart isB oldD (by omega)
        omega
    · rcases cases isD with ⟨rfl, rfl⟩ | ⟨_, _, oldD⟩
      · exact cover.apart oldC isA less
      · exact cover.apart oldC oldD less
  · intro u low high
    obtain ⟨c, k, isC, lowC, highC⟩ := cover.covered u low high
    by_cases first : c = a
    · rw [first, isA] at isC
      obtain rfl := Option.some.inj isC
      exact ⟨a, n + m, update_self .., by omega, by omega⟩
    · by_cases second : c = a + n
      · rw [second, isB] at isC
        obtain rfl := Option.some.inj isC
        exact ⟨a, n + m, update_self .., by omega, by omega⟩
      · refine ⟨c, k, ?_, lowC, highC⟩
        rw [update_of_ne first, update_of_ne second]
        exact isC

end Cover

end Micron.Lib

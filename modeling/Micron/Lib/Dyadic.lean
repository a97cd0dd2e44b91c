import Mathlib.Data.Nat.Bitwise
import Mathlib.Data.Nat.Find
import Micron.Lib.Cover

/-!
# Tilings by blocks whose sizes are powers of two

`exp` gives the blocks by their starts: `exp a = some k` says that a block of `2 ^ k`
starts at `a`, which is a multiple of its size.  The blocks cover `2 ^ top` without
overlap.  A block is split into two buddies, and two buddies are merged into a block.
-/

set_option autoImplicit false

namespace Micron.Lib

open Function

def sizes (exp : Nat → Option Nat) : Nat → Option Nat := fun a => (exp a).map fun k => 2 ^ k

structure Tiling (top : Nat) (exp : Nat → Option Nat) : Prop where
  aligned : ∀ {a k}, exp a = some k → 2 ^ k ∣ a
  cover : Cover 0 (2 ^ top) (sizes exp)

def buddy (a k : Nat) : Nat := a ^^^ 2 ^ k

theorem buddy_low {a k : Nat} (even : 2 ^ (k + 1) ∣ a) : buddy a k = a + 2 ^ k := by
  obtain ⟨q, rfl⟩ := even
  have small : 2 ^ k < 2 ^ (k + 1) := Nat.pow_lt_pow_right (by decide) (Nat.lt_succ_self k)
  rw [buddy, Nat.two_pow_add_eq_or_of_lt small]
  refine Nat.eq_of_testBit_eq fun i => ?_
  rw [Nat.testBit_xor, Nat.testBit_or, Nat.testBit_two_pow_mul, Nat.testBit_two_pow]
  by_cases here : k = i
  · subst here
    simp
  · simp [here]

theorem buddy_buddy (a k : Nat) : buddy (buddy a k) k = a := by
  rw [buddy, buddy, Nat.xor_assoc, Nat.xor_self, Nat.xor_zero]

/-- The start of an aligned block is the lower or the upper of two halves. -/
theorem low_or_high {a k : Nat} (aligned : 2 ^ k ∣ a) :
    2 ^ (k + 1) ∣ a ∨ ∃ low, 2 ^ (k + 1) ∣ low ∧ a = low + 2 ^ k := by
  obtain ⟨q, rfl⟩ := aligned
  rcases Nat.even_or_odd' q with ⟨r, even | odd⟩
  · exact .inl ⟨r, by rw [even, pow_succ, mul_assoc]⟩
  · refine .inr ⟨2 ^ (k + 1) * r, ⟨r, rfl⟩, ?_⟩
    rw [odd, mul_add, mul_one, pow_succ, mul_assoc]

theorem buddy_high {low k : Nat} (even : 2 ^ (k + 1) ∣ low) : buddy (low + 2 ^ k) k = low := by
  rw [← buddy_low even, buddy_buddy]

theorem buddy_ne (a k : Nat) : buddy a k ≠ a := by
  intro same
  have bit := congrArg (a ^^^ ·) same
  simp [buddy] at bit

/-- Of two multiples of `d` one is not less where it is less by `d` at most. -/
theorem le_of_dvd_of_lt_add {d a b : Nat} (left : d ∣ a) (right : d ∣ b) (less : a < b + d) :
    a ≤ b := by
  obtain ⟨p, rfl⟩ := left
  obtain ⟨q, rfl⟩ := right
  exact Nat.mul_le_mul_left d (Nat.lt_succ_iff.mp (Nat.lt_of_mul_lt_mul_left less))

namespace Tiling

variable {top : Nat} {exp : Nat → Option Nat} {a b k j u : Nat}

theorem sizes_eq_some (isA : exp a = some k) : sizes exp a = some (2 ^ k) := by
  rw [sizes, isA]
  rfl

theorem sizes_update (exp : Nat → Option Nat) (a : Nat) (e : Option Nat) :
    sizes (update exp a e) = update (sizes exp) a (e.map fun k => 2 ^ k) := by
  funext b
  by_cases same : b = a
  · rw [same, sizes, update_self, update_self]
  · rw [sizes, update_of_ne same, update_of_ne same, sizes]

theorem inside (tiling : Tiling top exp) (isA : exp a = some k) : a + 2 ^ k ≤ 2 ^ top :=
  (tiling.cover.inside (sizes_eq_some isA)).2

theorem apart (tiling : Tiling top exp) (isA : exp a = some k) (isB : exp b = some j) (less : a < b) :
    a + 2 ^ k ≤ b :=
  tiling.cover.apart (sizes_eq_some isA) (sizes_eq_some isB) less

theorem covered (tiling : Tiling top exp) (u : Nat) (below : u < 2 ^ top) :
    ∃ a k, exp a = some k ∧ a ≤ u ∧ u < a + 2 ^ k := by
  obtain ⟨a, n, isA, low, high⟩ := tiling.cover.covered u (Nat.zero_le u) below
  obtain ⟨k, isK, rfl⟩ := Option.map_eq_some_iff.mp isA
  exact ⟨a, k, isK, low, high⟩

/-- No place is in two blocks. -/
theorem eq_of_mem (tiling : Tiling top exp) (isA : exp a = some k) (isB : exp b = some j)
    (lowA : a ≤ u) (highA : u < a + 2 ^ k) (lowB : b ≤ u) (highB : u < b + 2 ^ j) : a = b :=
  tiling.cover.eq_of_mem (sizes_eq_some isA) (sizes_eq_some isB) lowA highA lowB highB

theorem exp_le (tiling : Tiling top exp) (isA : exp a = some k) : k ≤ top := by
  have inside := tiling.inside isA
  exact (Nat.pow_le_pow_iff_right (by decide : 1 < 2)).mp (by omega)

/-- A block of the whole size is the only one. -/
theorem eq_of_exp_top (tiling : Tiling top exp) (isA : exp a = some top) (isB : exp b = some j) :
    b = a := by
  have insideA := tiling.inside isA
  have insideB := tiling.inside isB
  have positive := Nat.two_pow_pos j
  exact (tiling.eq_of_mem isA isB (by omega) (by omega) (le_refl b) (by omega)).symm

theorem whole (top : Nat) : Tiling top (update (fun _ => none) 0 (some top)) := by
  refine ⟨?_, ?_⟩
  · intro a k isA
    by_cases zero : a = 0
    · rw [zero]
      exact Nat.dvd_zero _
    · rw [update_of_ne zero] at isA
      exact nomatch isA
  · have cover := Cover.single 0 (Nat.two_pow_pos top)
    rw [zero_add] at cover
    rw [sizes_update]
    exact cover

/-- A block is split into two halves. -/
theorem split (tiling : Tiling top exp) (isA : exp a = some (k + 1)) :
    Tiling top (update (update exp a (some k)) (a + 2 ^ k) (some k)) := by
  have positive := Nat.two_pow_pos k
  have halves : 2 ^ k ∣ a :=
    dvd_trans (Nat.pow_dvd_pow 2 (Nat.le_succ k)) (tiling.aligned isA)
  refine ⟨?_, ?_⟩
  · intro b j isB
    by_cases high : b = a + 2 ^ k
    · rw [high, update_self] at isB
      rw [high, ← Option.some.inj isB]
      exact Nat.dvd_add halves (Nat.dvd_refl _)
    · rw [update_of_ne high] at isB
      by_cases low : b = a
      · rw [low, update_self] at isB
        rw [low, ← Option.some.inj isB]
        exact halves
      · rw [update_of_ne low] at isB
        exact tiling.aligned isB
  · have whole : sizes exp a = some (2 ^ k + 2 ^ k) := by
      rw [sizes_eq_some isA, pow_succ, Nat.mul_two]
    rw [sizes_update, sizes_update]
    exact tiling.cover.cut whole positive positive

/-- Two halves are merged. -/
theorem merge (tiling : Tiling top exp) (even : 2 ^ (k + 1) ∣ a) (isLow : exp a = some k)
    (isHigh : exp (a + 2 ^ k) = some k) :
    Tiling top (update (update exp (a + 2 ^ k) none) a (some (k + 1))) := by
  refine ⟨?_, ?_⟩
  · intro b j isB
    by_cases low : b = a
    · rw [low, update_self] at isB
      rw [low, ← Option.some.inj isB]
      exact even
    · rw [update_of_ne low] at isB
      by_cases high : b = a + 2 ^ k
      · rw [high, update_self] at isB
        exact nomatch isB
      · rw [update_of_ne high] at isB
        exact tiling.aligned isB
  · have joined := tiling.cover.join (sizes_eq_some isLow) (sizes_eq_some isHigh)
    rw [← Nat.mul_two, ← pow_succ] at joined
    rw [sizes_update, sizes_update]
    exact joined

/-- The buddy of a block is inside, too. -/
theorem buddy_inside (tiling : Tiling top exp) (isA : exp a = some k) (below : k < top) :
    buddy a k + 2 ^ k ≤ 2 ^ top := by
  have inside := tiling.inside isA
  rcases low_or_high (tiling.aligned isA) with even | ⟨low, even, rfl⟩
  · rw [buddy_low even]
    have whole : 2 ^ (k + 1) ∣ 2 ^ top := Nat.pow_dvd_pow 2 below
    obtain ⟨q, rfl⟩ := even
    obtain ⟨r, whole⟩ := whole
    have less : q < r := by
      by_contra more
      have := Nat.mul_le_mul_left (2 ^ (k + 1)) (Nat.le_of_not_lt more)
      have := Nat.two_pow_pos k
      omega
    have := Nat.mul_le_mul_left (2 ^ (k + 1)) (Nat.succ_le_of_lt less)
    rw [Nat.mul_succ] at this
    omega
  · rw [buddy_high even]
    omega

/-- A block with its buddy lies in a block that covers the buddy and is larger. -/
theorem not_larger (tiling : Tiling top exp) (isA : exp a = some k) (isB : exp b = some j)
    (low : b ≤ buddy a k) (high : buddy a k < b + 2 ^ j) (larger : k < j) : False := by
  have positive := Nat.two_pow_pos k
  have wide : 2 ^ (k + 1) ∣ 2 ^ j := Nat.pow_dvd_pow 2 larger
  have alignedB : 2 ^ (k + 1) ∣ b := dvd_trans wide (tiling.aligned isB)
  obtain ⟨p, rfl⟩ := alignedB
  obtain ⟨r, wide⟩ := wide
  have same : 2 ^ (k + 1) * p = a := by
    rcases low_or_high (tiling.aligned isA) with ⟨q, rfl⟩ | ⟨_, ⟨q, rfl⟩, rfl⟩
    · rw [buddy_low ⟨q, rfl⟩] at low high
      refine tiling.eq_of_mem isB isA ?_ ?_ (le_refl _) (by omega)
      · have : p ≤ q := by
          by_contra more
          have := Nat.mul_le_mul_left (2 ^ (k + 1)) (Nat.succ_le_of_lt (Nat.lt_of_not_le more))
          rw [Nat.mul_succ] at this
          omega
        exact Nat.mul_le_mul_left _ this
      · omega
    · rw [buddy_high ⟨q, rfl⟩] at low high
      refine tiling.eq_of_mem isB isA (by omega) ?_ (le_refl _) (by omega)
      rw [wide, ← mul_add] at high ⊢
      have : q < p + r := Nat.lt_of_mul_lt_mul_left high
      have := Nat.mul_le_mul_left (2 ^ (k + 1)) (Nat.succ_le_of_lt this)
      rw [Nat.mul_succ] at this
      omega
  rw [same, isA] at isB
  exact absurd (Option.some.inj isB) (ne_of_lt larger)

/-- Where no block has its buddy, there is one block only. -/
theorem whole_of_no_buddies (tiling : Tiling top exp)
    (none_ : ∀ a k, exp a = some k → k < top → exp (buddy a k) ≠ some k) : exp 0 = some top := by
  classical
  have some_ : ∃ k, ∃ a, exp a = some k := by
    obtain ⟨a, k, isA, _⟩ := tiling.covered 0 (Nat.two_pow_pos top)
    exact ⟨k, a, isA⟩
  obtain ⟨a, isA⟩ := Nat.find_spec some_
  have least : ∀ b j, exp b = some j → Nat.find some_ ≤ j := fun b j isB => Nat.find_le ⟨b, isB⟩
  generalize Nat.find some_ = k at isA least
  rcases lt_or_ge k top with below | whole
  · -- the buddy of a smallest block is covered by one that is neither smaller nor larger
    have inside := tiling.buddy_inside isA below
    have positive := Nat.two_pow_pos k
    obtain ⟨b, j, isB, low, high⟩ := tiling.covered (buddy a k) (by omega)
    rcases eq_or_lt_of_le (least b j isB) with same | larger
    · subst same
      exfalso
      refine none_ a k isA below ?_
      have alignedB := tiling.aligned isB
      have alignedBuddy : 2 ^ k ∣ buddy a k := by
        have half : 2 ^ k ∣ 2 ^ (k + 1) := Nat.pow_dvd_pow 2 (Nat.le_succ k)
        rcases low_or_high (tiling.aligned isA) with even | ⟨low', even, rfl⟩
        · rw [buddy_low even]
          exact Nat.dvd_add (Nat.dvd_trans half even) (Nat.dvd_refl _)
        · rw [buddy_high even]
          exact dvd_trans half even
      have gap : 2 ^ k ∣ buddy a k - b := Nat.dvd_sub alignedBuddy alignedB
      have zero : buddy a k - b = 0 := Nat.eq_zero_of_dvd_of_lt gap (by omega)
      have equal : buddy a k = b := by omega
      rw [equal]
      exact isB
    · exact (tiling.not_larger isA isB low high larger).elim
  · have top_ : k = top := le_antisymm (tiling.exp_le isA) whole
    rw [top_] at isA
    have inside := tiling.inside isA
    have zero : a = 0 := by omega
    rw [← zero]
    exact isA

/-- Where free blocks are not buddies, an aligned run that only free blocks meet is not longer
than one of them. -/
theorem run_in_block (tiling : Tiling top exp) {free : Nat → Prop}
    (none_ : ∀ b j, exp b = some j → j < top → free b → exp (buddy b j) = some j →
      ¬ free (buddy b j))
    (aligned : 2 ^ k ∣ a) (inside : a + 2 ^ k ≤ 2 ^ top)
    (unused : ∀ b j, exp b = some j → b < a + 2 ^ k → a < b + 2 ^ j → free b) :
    ∃ b j, exp b = some j ∧ free b ∧ k ≤ j := by
  classical
  have some_ : ∃ j b, exp b = some j ∧ b < a + 2 ^ k ∧ a < b + 2 ^ j := by
    obtain ⟨b, j, isB, low, high⟩ := tiling.covered a (by omega)
    exact ⟨j, b, isB, by omega, high⟩
  obtain ⟨b, isB, low, high⟩ := Nat.find_spec some_
  have least : ∀ c i, exp c = some i → c < a + 2 ^ k → a < c + 2 ^ i → Nat.find some_ ≤ i :=
    fun c i isC low high => Nat.find_le ⟨c, isC, low, high⟩
  generalize Nat.find some_ = m at isB high least
  rcases lt_or_ge m k with small | large
  · -- the run holds the buddy of a smallest block, which is a block of that size, too
    exfalso
    have half : 2 ^ m ∣ 2 ^ (m + 1) := Nat.pow_dvd_pow 2 (Nat.le_succ m)
    have whole : 2 ^ (m + 1) ∣ 2 ^ k := Nat.pow_dvd_pow 2 small
    have start := dvd_trans whole aligned
    have buddyIn : 2 ^ m ∣ buddy b m ∧ a ≤ buddy b m ∧ buddy b m < a + 2 ^ k := by
      rcases low_or_high (tiling.aligned isB) with even | ⟨c, even, rfl⟩
      · have upper := le_of_dvd_of_lt_add (Nat.dvd_add even (Nat.dvd_refl _))
          (Nat.dvd_add start whole) (show b + 2 ^ (m + 1) < a + 2 ^ k + 2 ^ (m + 1) by omega)
        rw [buddy_low even]
        exact ⟨Nat.dvd_add (Nat.dvd_trans half even) (Nat.dvd_refl _), by omega, by omega⟩
      · have under := le_of_dvd_of_lt_add start even (by omega)
        rw [buddy_high even]
        exact ⟨dvd_trans half even, under, by omega⟩
    obtain ⟨alignedBuddy, lowBuddy, highBuddy⟩ := buddyIn
    obtain ⟨c, i, isC, lowC, highC⟩ := tiling.covered (buddy b m) (by omega)
    have isFree := unused c i isC (by omega) (by omega)
    rcases eq_or_lt_of_le (least c i isC (by omega) (by omega)) with same | larger
    · subst same
      have equal : buddy b m = c := le_antisymm
        (le_of_dvd_of_lt_add alignedBuddy (tiling.aligned isC) highC) lowC
      rw [← equal] at isC isFree
      refine none_ b m isB ?_ (unused b m isB low high) isC isFree
      exact (Nat.pow_lt_pow_iff_right (by decide : 1 < 2)).mp
        (lt_of_lt_of_le (Nat.pow_lt_pow_right (by decide) small) (by omega))
    · exact tiling.not_larger isB isC lowC highC larger
  · exact ⟨b, m, isB, unused b m isB low high, large⟩

end Tiling

end Micron.Lib

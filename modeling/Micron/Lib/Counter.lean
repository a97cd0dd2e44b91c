import Mathlib.Data.Nat.Bitwise
import Mathlib.Tactic.Ring

/-!
# Free-running counters in machine words

A counter that is never reset is kept as its residue.  The difference of two residues
is the distance of the counters while that stays below a lap, a mask of low bits
is the remainder by a power of two, and or-ing a number with its own shifts fills it up
to the next power of two.
-/

set_option autoImplicit false

namespace Micron.Lib

open Nat

def word (x : Nat) : Nat := x % 2 ^ 64

def wordSub (a b : Nat) : Nat := word (a + (2 ^ 64 - b % 2 ^ 64))

theorem word_lt (x : Nat) : word x < 2 ^ 64 := mod_lt _ (by decide)

theorem word_of_lt {x : Nat} (small : x < 2 ^ 64) : word x = x := mod_eq_of_lt small

theorem word_word_add (x y : Nat) : word (word x + y) = word (x + y) := by
  unfold word
  omega

theorem word_inj {a b : Nat} (near : a < b + 2 ^ 64) (near' : b < a + 2 ^ 64)
    (same : word a = word b) : a = b := by
  unfold word at same
  omega

theorem word_ne_succ (x : Nat) : word x ≠ word (x + 1) := by
  unfold word
  omega

theorem wordSub_word {a b : Nat} (le : b ≤ a) (near : a < b + 2 ^ 64) :
    wordSub (word a) (word b) = a - b := by
  unfold wordSub word
  omega

theorem wordSub_of_le {a b : Nat} (le : b ≤ a) (small : a < 2 ^ 64) : wordSub a b = a - b := by
  unfold wordSub word
  omega

/-- The low bits of a counter survive its reduction to a word. -/
theorem word_and_mask {k : Nat} (bound : k ≤ 64) (x : Nat) :
    word x &&& (2 ^ k - 1) = x % 2 ^ k := by
  rw [and_two_pow_sub_one_eq_mod, word]
  exact mod_mod_of_dvd x (pow_dvd_pow 2 bound)

theorem mod_inj {a b n : Nat} (near : a < b + n) (near' : b < a + n) (same : a % n = b % n) :
    a = b := by
  have division := div_add_mod a n
  have division' := div_add_mod b n
  rcases lt_trichotomy (a / n) (b / n) with less | equal | more
  · have : n * (a / n + 1) ≤ n * (b / n) := mul_le_mul_left n less
    rw [mul_add] at this
    omega
  · rw [equal] at division
    omega
  · have : n * (b / n + 1) ≤ n * (a / n) := mul_le_mul_left n more
    rw [mul_add] at this
    omega

def smear (n shift : Nat) : Nat := n ||| (n >>> shift)

/-- The next power of two by or-ing shifts, in words. -/
def nextPow2 (n : Nat) : Nat :=
  word (smear (smear (smear (smear (smear (smear (wordSub n 1) 1) 2) 4) 8) 16) 32 + 1)

/-- The bits from `top` down to `top - width` are set, and none above. -/
structure Filled (top width n : Nat) : Prop where
  above : ∀ i, top < i → n.testBit i = false
  set : ∀ i, i ≤ top → top < i + width → n.testBit i = true

theorem Filled.smear {top width n : Nat} (filled : Filled top width n) :
    Filled top (width + width) (smear n width) where
  above i high := by
    rw [Lib.smear, testBit_or, testBit_shiftRight, filled.above i high,
      filled.above (width + i) (by omega)]
    rfl
  set i low near := by
    rw [Lib.smear, testBit_or, testBit_shiftRight]
    by_cases close : top < i + width
    · rw [filled.set i low close, Bool.true_or]
    · rw [filled.set (width + i) (by omega) (by omega), Bool.or_true]

theorem Filled.eq {top width n : Nat} (filled : Filled top width n) (wide : top < width) :
    n = 2 ^ (top + 1) - 1 := by
  refine eq_of_testBit_eq ?_
  intro i
  by_cases low : i ≤ top
  · rw [filled.set i low (by omega)]
    simpa using by omega
  · rw [filled.above i (by omega)]
    simpa using by omega

theorem filled_log2 {n : Nat} (pos : n ≠ 0) : Filled n.log2 1 n where
  above i high := by
    refine testBit_lt_two_pow ?_
    exact lt_of_lt_of_le Nat.lt_log2_self (Nat.pow_le_pow_right (by decide) high)
  set i low near := by
    have top : i = n.log2 := by omega
    rw [top]
    exact testBit_log2 pos

/-- The result is a power of two that is large enough, zero where that is no word. -/
theorem nextPow2_eq {n : Nat} (pos : 1 ≤ n) (small : n < 2 ^ 64) :
    ∃ k, k ≤ 64 ∧ nextPow2 n = word (2 ^ k) ∧ n ≤ 2 ^ k ∧ (n ≤ 2 ^ 63 → k ≤ 63) := by
  unfold nextPow2
  rw [wordSub_of_le pos small]
  rcases eq_or_lt_of_le pos with one | more
  · subst one
    exact ⟨0, by decide, by decide, by decide, by decide⟩
  · have filled := filled_log2 (n := n - 1) (by omega)
    have lower := Nat.log2_self_le (n := n - 1) (by omega)
    have upper : n - 1 < 2 ^ ((n - 1).log2 + 1) := lt_log2_self
    have below : ∀ top, n ≤ 2 ^ top → (n - 1).log2 < top := by
      intro top le
      exact (Nat.pow_lt_pow_iff_right (by decide)).mp (by omega : 2 ^ (n - 1).log2 < 2 ^ top)
    have bound := below 64 (le_of_lt small)
    have full := filled.smear.smear.smear.smear.smear.smear.eq (by omega)
    refine ⟨(n - 1).log2 + 1, by omega, ?_, by omega, below 63⟩
    rw [full, Nat.sub_add_cancel (Nat.two_pow_pos _)]

/-- Up to the largest power of two in a word, the result is a power of two that is large
enough. -/
theorem nextPow2_spec {n : Nat} (pos : 1 ≤ n) (small : n ≤ 2 ^ 63) :
    ∃ k, k ≤ 63 ∧ nextPow2 n = 2 ^ k ∧ n ≤ 2 ^ k := by
  obtain ⟨k, _, power, le, bound⟩ := nextPow2_eq pos (by omega)
  refine ⟨k, bound small, ?_, le⟩
  rw [power]
  exact word_of_lt (Nat.pow_lt_pow_right (by decide) (Nat.lt_succ_of_le (bound small)))

/-- A mask of one less than a power of two leaves the remainder. -/
theorem and_wordSub_one {k : Nat} (bound : k ≤ 63) (x : Nat) :
    word x &&& wordSub (2 ^ k) 1 = x % 2 ^ k := by
  have top : 2 ^ k < 2 ^ 64 := Nat.pow_lt_pow_right (by decide) (by omega)
  rw [wordSub_of_le (Nat.two_pow_pos k) top, word_and_mask (by omega)]

end Micron.Lib

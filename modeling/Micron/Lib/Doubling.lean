import Mathlib.Tactic.Linarith

/-!
# Rounding up to a power of two in machine words

The doubling loop `while ( p < n ) p <<= 1` on 64-bit words, which returns the
top power of two where the next doubling would wrap.
-/

set_option autoImplicit false

namespace Micron.Lib

def wordSize : Nat := 2 ^ 64

/-- Doubles `p` until it reaches `n`, and stops where `p << 1` wraps.  Sixty-four
rounds reach the top power of two from one. -/
def roundLoop (n : Nat) : Nat → Nat → Nat
  | 0, p => p
  | rounds + 1, p =>
    if p < n then
      let np := p * 2 % wordSize
      if np ≤ p then p else roundLoop n rounds np
    else p

/-- The loop stops at a power of two that is large enough, or saturates. -/
theorem roundLoop_spec (n : Nat) : ∀ rounds a : Nat, a + rounds = 64 → a ≤ 63 →
    ∃ b, roundLoop n rounds (2 ^ a) = 2 ^ b ∧ (n ≤ 2 ^ b ∨ b = 63) := by
  intro rounds
  induction rounds with
  | zero =>
    intro a total low
    omega
  | succ rounds ih =>
    intro a total low
    rw [roundLoop]
    by_cases short : 2 ^ a < n
    · rw [if_pos short]
      by_cases last : a = 63
      · subst last
        exact ⟨63, rfl, .inr rfl⟩
      · have double : 2 ^ a * 2 % wordSize = 2 ^ (a + 1) := by
          rw [← pow_succ, wordSize]
          exact Nat.mod_eq_of_lt (Nat.pow_lt_pow_right (by decide) (by omega))
        have grows : ¬ 2 ^ (a + 1) ≤ 2 ^ a := by
          rw [Nat.pow_le_pow_iff_right (by decide)]
          omega
        simp only [double, if_neg grows]
        exact ih (a + 1) (by omega) (by omega)
    · rw [if_neg short]
      exact ⟨a, rfl, .inl (by omega)⟩

end Micron.Lib

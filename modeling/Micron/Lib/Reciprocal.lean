import Mathlib.Tactic.Linarith
import Mathlib.Tactic.LinearCombination
import Mathlib.Tactic.Ring

/-!
# Quotient digits from a reciprocal

A divisor `d` of one or two digits to the base `B` has a reciprocal `v` of one digit, and
the product of a numerator's upper digits with it gives a candidate that is off by one at
most.  What tells which way is whether the candidate's remainder passes the lower digit of
that product.
-/

set_option autoImplicit false

namespace Micron.Lib.Reciprocal

/-- `B + v` is the quotient of `P - 1` and `d`. -/
def IsInverse (B P d v : Int) : Prop := P - d ≤ (B + v) * d ∧ (B + v) * d < P

variable {B d v : Int}

theorem IsInverse.low {P : Int} (inverse : IsInverse B P d v) (divisor : 0 < d) (less : B * d < P) :
    0 ≤ v := by
  by_contra negative
  have most : (B + v + 1) * d ≤ B * d := by
    refine Int.mul_le_mul_of_nonneg_right (by omega) (by omega)
  have := inverse.1
  linarith

theorem IsInverse.high {P : Int} (inverse : IsInverse B P d v) (divisor : 0 < d) (more : P ≤ 2 * B * d) :
    v < B := by
  by_contra large
  have least : 2 * B * d ≤ (B + v) * d := by
    refine Int.mul_le_mul_of_nonneg_right (by omega) (by omega)
  have := inverse.2
  linarith

/-- A quotient whose remainder is in range is a digit. -/
theorem digit_range {N x : Int} (divisor : 0 < d) (lowN : 0 ≤ N) (highN : N < d * B)
    (low : 0 ≤ N - x * d) (high : N - x * d < d) : 0 ≤ x ∧ x < B := by
  constructor
  · by_contra negative
    have le : (x + 1) * d ≤ 0 := mul_nonpos_of_nonpos_of_nonneg (by omega) (le_of_lt divisor)
    linarith
  · by_contra large
    have le : B * d ≤ x * d := mul_le_mul_of_nonneg_right (by omega) (le_of_lt divisor)
    linarith

section OneDigit

variable {u1 u0 q1 q0 : Int}

/-- The remainder of the candidate, in terms of what the reciprocal misses. -/
theorem remainder_one (k : Int) (isK : (B + v) * d = B ^ 2 - k)
    (candidate : q1 * B + q0 = (B + v) * u1 + u0) :
    B * (u1 * B + u0 - (q1 + 1) * d) = k * u1 + (B - d) * u0 + d * q0 - d * B := by
  linear_combination (-u1) * isK - d * candidate

variable (inverse : IsInverse B (B ^ 2) d v) (divisor : 0 < d) (below : d < B)
  (lowU1 : 0 ≤ u1) (highU1 : u1 < d) (lowU0 : 0 ≤ u0) (highU0 : u0 < B)
  (candidate : q1 * B + q0 = (B + v) * u1 + u0) (lowQ : 0 ≤ q0) (highQ : q0 < B)

include inverse divisor below lowU1 lowU0 candidate lowQ highQ in
theorem low_one : -d ≤ u1 * B + u0 - (q1 + 1) * d ∧ q0 - B < u1 * B + u0 - (q1 + 1) * d := by
  obtain ⟨k, isK⟩ : ∃ k, (B + v) * d = B ^ 2 - k := ⟨B ^ 2 - (B + v) * d, by ring⟩
  have identity := remainder_one k isK candidate
  obtain ⟨least, most⟩ := inverse
  generalize u1 * B + u0 - (q1 + 1) * d = r at identity
  have first : 0 ≤ k * u1 := mul_nonneg (by linarith) lowU1
  have second : 0 ≤ (B - d) * u0 := mul_nonneg (by linarith) lowU0
  have third : 0 ≤ d * q0 := mul_nonneg (le_of_lt divisor) lowQ
  have base : 0 < B := by linarith
  constructor
  · refine le_of_mul_le_mul_left (a := B) ?_ base
    linarith
  · refine lt_of_mul_lt_mul_left (a := B) ?_ (le_of_lt base)
    -- the divisor is below the base
    have strict : d * (B - q0) < B * (B - q0) := mul_lt_mul_of_pos_right below (by linarith)
    linarith

include inverse divisor below lowU1 highU1 highU0 candidate in
theorem high_one : ¬ (B - d ≤ u1 * B + u0 - (q1 + 1) * d ∧ q0 ≤ u1 * B + u0 - (q1 + 1) * d) := by
  obtain ⟨k, isK⟩ : ∃ k, (B + v) * d = B ^ 2 - k := ⟨B ^ 2 - (B + v) * d, by ring⟩
  have identity := remainder_one k isK candidate
  obtain ⟨least, most⟩ := inverse
  generalize u1 * B + u0 - (q1 + 1) * d = r at identity ⊢
  intro both
  have first : k * u1 ≤ d * (d - 1) := by
    refine mul_le_mul (by linarith) (by omega) lowU1 (le_of_lt divisor)
  have second : (B - d) * u0 ≤ (B - d) * (B - 1) := mul_le_mul_of_nonneg_left (by omega) (by linarith)
  have third : (B - d) * (B - d) ≤ (B - d) * r := mul_le_mul_of_nonneg_left both.1 (by linarith)
  have fourth : d * q0 ≤ d * r := mul_le_mul_of_nonneg_left both.2 (le_of_lt divisor)
  linarith

end OneDigit

section TwoDigits

variable {d1 d0 u2 u1 u0 q1 q0 : Int}

theorem remainder_two (u0 k : Int) (isK : (B + v) * d = B ^ 3 - k)
    (candidate : q1 * B + q0 = (B + v) * u2 + u1) :
    B * (u2 * B ^ 2 + u1 * B + u0 - (q1 + 1) * d) =
      k * u2 + (B ^ 2 - d) * u1 + B * u0 + d * q0 - d * B := by
  linear_combination (-u2) * isK - d * candidate

variable (inverse : IsInverse B (B ^ 3) d v) (isD : d = d1 * B + d0) (lowD0 : 0 ≤ d0) (highD0 : d0 < B)
  (lowD1 : 0 < d1) (highD1 : d1 < B) (lowU2 : 0 ≤ u2) (lowU1 : 0 ≤ u1) (highU1 : u1 < B) (lowU0 : 0 ≤ u0)
  (highU0 : u0 < B) (upper : u2 * B + u1 < d) (candidate : q1 * B + q0 = (B + v) * u2 + u1)
  (lowQ : 0 ≤ q0) (highQ : q0 < B)

include isD lowD0 highD0 lowD1 highD1 in
theorem divisor_two : 0 < B ∧ 0 < d ∧ d < B ^ 2 := by
  have base : 0 < B := by linarith
  refine ⟨base, ?_, ?_⟩
  · have := mul_pos lowD1 base
    linarith
  · have le : d1 * B ≤ (B - 1) * B := mul_le_mul_of_nonneg_right (by omega) (le_of_lt base)
    linarith

include inverse isD lowD0 highD0 lowD1 highD1 lowU2 lowU1 lowU0 candidate lowQ highQ in
theorem low_two : -d ≤ u2 * B ^ 2 + u1 * B + u0 - (q1 + 1) * d ∧
    q0 * B - B ^ 2 ≤ u2 * B ^ 2 + u1 * B + u0 - (q1 + 1) * d := by
  obtain ⟨k, isK⟩ : ∃ k, (B + v) * d = B ^ 3 - k := ⟨B ^ 3 - (B + v) * d, by ring⟩
  have identity := remainder_two u0 k isK candidate
  obtain ⟨least, most⟩ := inverse
  generalize u2 * B ^ 2 + u1 * B + u0 - (q1 + 1) * d = r at identity
  obtain ⟨base, divisor, below⟩ := divisor_two isD lowD0 highD0 lowD1 highD1
  have first : 0 ≤ k * u2 := mul_nonneg (by linarith) lowU2
  have second : 0 ≤ (B ^ 2 - d) * u1 := mul_nonneg (by linarith) lowU1
  have third : 0 ≤ B * u0 := mul_nonneg (le_of_lt base) lowU0
  have fourth : 0 ≤ d * q0 := mul_nonneg (le_of_lt divisor) lowQ
  constructor
  · refine le_of_mul_le_mul_left (a := B) ?_ base
    linarith
  · refine le_of_mul_le_mul_left (a := B) ?_ base
    have scaled : d * (B - q0) ≤ B ^ 2 * (B - q0) := mul_le_mul_of_nonneg_right (le_of_lt below) (by linarith)
    linarith

include isD lowD0 highD0 lowD1 highD1 lowU2 lowU1 highU1 highU0 upper inverse in
/-- What the reciprocal and the lower digits add to the remainder. -/
theorem excess_two (k : Int) (isK : (B + v) * d = B ^ 3 - k) :
    B * k * u2 + B * (B ^ 2 - d) * u1 + B ^ 2 * u0 < B ^ 2 * d + (B ^ 2 - d) ^ 2 := by
  obtain ⟨least, most⟩ := inverse
  obtain ⟨base, divisor, below⟩ := divisor_two isD lowD0 highD0 lowD1 highD1
  have kPositive : 0 < k := by linarith
  have kMost : k ≤ d := by linarith
  have last : B ^ 2 * u0 ≤ B ^ 2 * (B - 1) := mul_le_mul_of_nonneg_left (by omega) (by positivity)
  have u2Most : u2 ≤ d1 := by
    by_contra more
    have le : (d1 + 1) * B ≤ u2 * B := mul_le_mul_of_nonneg_right (by omega) (le_of_lt base)
    linarith
  rcases lt_or_eq_of_le u2Most with less | same
  · have first : B * k * u2 ≤ B * d * (d1 - 1) := by
      refine mul_le_mul (mul_le_mul_of_nonneg_left kMost (le_of_lt base)) (by omega) lowU2 (by positivity)
    have second : B * (B ^ 2 - d) * u1 ≤ B * (B ^ 2 - d) * (B - 1) :=
      mul_le_mul_of_nonneg_left (by omega) (mul_nonneg (le_of_lt base) (by linarith))
    have third : 0 ≤ d * d0 := mul_nonneg (le_of_lt divisor) lowD0
    have product : B * d * d1 = d * d - d * d0 := by rw [isD]; ring
    have positive : 0 < B ^ 2 := by positivity
    linarith
  · -- the numerator's upper digit is that of the divisor
    have u1Most : u1 ≤ d0 - 1 := by
      rw [same, isD] at upper
      omega
    have excess : 0 < B ^ 2 - d := by linarith
    have second : B * (B ^ 2 - d) * u1 ≤ B * (B ^ 2 - d) * (d0 - 1) :=
      mul_le_mul_of_nonneg_left u1Most (mul_nonneg (le_of_lt base) (le_of_lt excess))
    have product : B * k * d1 = k * d - k * d0 := by rw [isD]; ring
    have positive : 0 < B ^ 2 := by positivity
    have lowV : 0 ≤ v := by
      refine IsInverse.low ⟨least, most⟩ divisor ?_
      calc B * d < B * B ^ 2 := mul_lt_mul_of_pos_left below base
        _ = B ^ 3 := by ring
    rw [same]
    rcases eq_or_lt_of_le lowV with zero | some_
    · have isE : k = B * (B ^ 2 - d) := by
        rw [← zero] at isK
        linarith
      have few : B ^ 2 - d ≤ B - 1 := by
        by_contra more
        have le : B * B ≤ B * (B ^ 2 - d) := mul_le_mul_of_nonneg_left (by omega) (le_of_lt base)
        linarith
      have third : B * d * (B ^ 2 - d) ≤ B * d * (B - 1) :=
        mul_le_mul_of_nonneg_left few (mul_nonneg (le_of_lt base) (le_of_lt divisor))
      have square : 0 ≤ (B ^ 2 - d) ^ 2 := by positivity
      rw [isE] at product ⊢
      linarith
    · have third : k * (d - d0) ≤ d * (d - d0) := by
        refine mul_le_mul_of_nonneg_right kMost ?_
        have := mul_pos lowD1 base
        linarith
      have more : d ≤ B * (B ^ 2 - d) := by
        have least' : 1 * d ≤ v * d := mul_le_mul_of_nonneg_right (by omega) (le_of_lt divisor)
        linarith
      have fourth : (B * (B ^ 2 - d) - d) * d0 ≤ (B * (B ^ 2 - d) - d) * B :=
        mul_le_mul_of_nonneg_left (le_of_lt highD0) (by linarith)
      linarith

include inverse isD lowD0 highD0 lowD1 highD1 lowU2 lowU1 highU1 highU0 upper candidate in
theorem high_two : ¬ (B ^ 2 - d ≤ u2 * B ^ 2 + u1 * B + u0 - (q1 + 1) * d ∧
    q0 * B ≤ u2 * B ^ 2 + u1 * B + u0 - (q1 + 1) * d) := by
  obtain ⟨k, isK⟩ : ∃ k, (B + v) * d = B ^ 3 - k := ⟨B ^ 3 - (B + v) * d, by ring⟩
  have identity := remainder_two u0 k isK candidate
  have excess := excess_two inverse isD lowD0 highD0 lowD1 highD1 lowU2 lowU1 highU1 highU0 upper k isK
  generalize u2 * B ^ 2 + u1 * B + u0 - (q1 + 1) * d = r at identity ⊢
  intro both
  obtain ⟨base, divisor, below⟩ := divisor_two isD lowD0 highD0 lowD1 highD1
  have first : (B ^ 2 - d) * (B ^ 2 - d) ≤ (B ^ 2 - d) * r :=
    mul_le_mul_of_nonneg_left both.1 (by linarith)
  have second : d * (q0 * B) ≤ d * r := mul_le_mul_of_nonneg_left both.2 (le_of_lt divisor)
  have scaled : B * (B * r) = B * (k * u2 + (B ^ 2 - d) * u1 + B * u0 + d * q0 - d * B) := by rw [identity]
  linarith

include inverse lowU1 upper in
/-- The candidate is a digit. -/
theorem candidate_two (base : 0 < B) (lowV : 0 ≤ v) : (B + v) * u2 + u1 < B ^ 2 := by
  obtain ⟨least, most⟩ := inverse
  refine lt_of_mul_lt_mul_left (a := B) ?_ (le_of_lt base)
  have product : (B + v) * (u2 * B) ≤ (B + v) * (d - 1 - u1) :=
    mul_le_mul_of_nonneg_left (by linarith) (by linarith)
  have rest : 0 ≤ v * u1 := mul_nonneg lowV lowU1
  linarith

end TwoDigits

end Micron.Lib.Reciprocal

import Mathlib.Data.Nat.Digits.Lemmas
import Mathlib.Data.Nat.Size

/-!
# Numerals with the most significant digit first

`numeral b x` are the digits of `x` without leading zeros, `row b k x` the last `k`
digits with as many zeros in front as it takes, and `horner b ds` is the number
that digits stand for.  A row splits into two at any place.
-/

set_option autoImplicit false

namespace Micron.Lib

open List Nat

section Numerals
variable {b : Nat}

/-- The digits of a number, the most significant one first; none for zero. -/
def numeral (b x : Nat) : List Nat := (Nat.digits b x).reverse

def row (b : Nat) : Nat → Nat → List Nat
  | 0, _ => []
  | k + 1, x => row b k (x / b) ++ [x % b]

def horner (b : Nat) (digits : List Nat) : Nat := digits.foldl (fun acc d => acc * b + d) 0

@[simp] theorem numeral_zero (b : Nat) : numeral b 0 = [] := by
  simp [numeral]

theorem numeral_of_pos (large : 1 < b) {x : Nat} (positive : 0 < x) :
    numeral b x = numeral b (x / b) ++ [x % b] := by
  rw [numeral, digits_def' large positive, reverse_cons, numeral]

@[simp] theorem length_row (b k x : Nat) : (row b k x).length = k := by
  induction k generalizing x with
  | zero => rfl
  | succ k ih => simp [row, ih]

theorem row_append (b j k x : Nat) : row b (j + k) x = row b j (x / b ^ k) ++ row b k x := by
  induction k generalizing x with
  | zero => simp [row]
  | succ k ih =>
    rw [Nat.add_succ, row, ih, row, Nat.div_div_eq_div_mul, pow_succ', append_assoc]

theorem row_mod (b k x : Nat) : row b k (x % b ^ k) = row b k x := by
  induction k generalizing x with
  | zero => rfl
  | succ k ih =>
    have high : x % b ^ (k + 1) / b = x / b % b ^ k := by
      rw [pow_succ, mod_mul_left_div_self]
    have low : x % b ^ (k + 1) % b = x % b := mod_mod_of_dvd x (Dvd.intro_left _ rfl)
    rw [row, row, high, low, ih]

theorem row_lt (large : 1 < b) (k x : Nat) : ∀ d ∈ row b k x, d < b := by
  induction k generalizing x with
  | zero => simp [row]
  | succ k ih =>
    intro d member
    rcases mem_append.mp member with front | last
    · exact ih _ d front
    · rw [mem_singleton.mp last]
      exact mod_lt _ (lt_trans zero_lt_one large)

theorem numeral_lt (large : 1 < b) (x : Nat) : ∀ d ∈ numeral b x, d < b := by
  intro d member
  exact digits_lt_base large (mem_reverse.mp member)

/-- The digits in front of the last `k`. -/
theorem numeral_split (large : 1 < b) (k : Nat) {x : Nat} (more : 0 < x / b ^ k) :
    numeral b x = numeral b (x / b ^ k) ++ row b k x := by
  induction k generalizing x with
  | zero => simp [row]
  | succ k ih =>
    have more' : 0 < x / b / b ^ k := by
      rw [Nat.div_div_eq_div_mul, ← pow_succ']
      exact more
    have positive : 0 < x := by
      rcases Nat.eq_zero_or_pos x with rfl | positive
      · simp at more
      · exact positive
    rw [numeral_of_pos large positive, ih more', row, Nat.div_div_eq_div_mul, ← pow_succ',
      append_assoc]

theorem length_numeral_le (large : 1 < b) {k x : Nat} (small : x < b ^ k) :
    (numeral b x).length ≤ k := by
  rw [numeral, length_reverse]
  exact (digits_length_le_iff large x).mpr small

theorem length_numeral_le_size (large : 1 < b) (x : Nat) : (numeral b x).length ≤ x.size :=
  length_numeral_le large (lt_of_lt_of_le (Nat.lt_size_self x) (Nat.pow_le_pow_left large _))

/-- A row is the numeral behind zeros. -/
theorem row_eq (large : 1 < b) {k x : Nat} (small : x < b ^ k) :
    row b k x = List.replicate (k - (numeral b x).length) 0 ++ numeral b x := by
  induction k generalizing x with
  | zero =>
    have zero : x = 0 := by simpa using small
    simp [row, zero]
  | succ k ih =>
    have small' : x / b < b ^ k := by
      rw [Nat.div_lt_iff_lt_mul (lt_trans Nat.zero_lt_one large), ← pow_succ]
      exact small
    rw [row, ih small']
    rcases Nat.eq_zero_or_pos x with rfl | positive
    · simp [replicate_succ']
    · rw [numeral_of_pos large positive, length_append, length_singleton,
        append_assoc, Nat.add_sub_add_right]

theorem horner_append (b : Nat) (front back : List Nat) :
    horner b (front ++ back) = horner b front * b ^ back.length + horner b back := by
  induction back using List.reverseRecOn with
  | nil => simp [horner]
  | append_singleton back d ih =>
    have step : ∀ l : List Nat, horner b (l ++ [d]) = horner b l * b + d := by
      intro l
      simp [horner]
    rw [← append_assoc, step, step, ih, length_append, length_singleton,
      pow_succ, add_mul, mul_assoc, add_assoc]

theorem horner_row (b k x : Nat) : horner b (row b k x) = x % b ^ k := by
  induction k generalizing x with
  | zero => simp [row, horner, mod_one]
  | succ k ih =>
    rw [row, horner_append, ih, length_singleton, pow_one, pow_succ',
      mod_mul]
    simp [horner]
    ring

theorem horner_numeral (large : 1 < b) (x : Nat) : horner b (numeral b x) = x := by
  induction x using Nat.strong_induction_on with
  | _ x ih =>
    rcases Nat.eq_zero_or_pos x with rfl | positive
    · simp [horner]
    · rw [numeral_of_pos large positive, horner_append, ih _ (Nat.div_lt_self positive large)]
      simp [horner, Nat.div_add_mod']

theorem horner_lt {digits : List Nat} (all : ∀ d ∈ digits, d < b) :
    horner b digits < b ^ digits.length := by
  induction digits using List.reverseRecOn with
  | nil => simp [horner]
  | append_singleton front d ih =>
    have below := ih fun e member => all e (mem_append_left _ member)
    have last := all d (mem_append_right _ (mem_singleton.mpr rfl))
    rw [horner_append, length_append, length_singleton, pow_one, pow_succ]
    have single : horner b [d] = d := by simp [horner]
    rw [single]
    calc horner b front * b + d < horner b front * b + b := by omega
      _ = (horner b front + 1) * b := by rw [add_mul, one_mul]
      _ ≤ b ^ front.length * b := mul_le_mul_right b below

/-- The first digit of a numeral is not zero. -/
theorem head_numeral_ne_zero {x d : Nat} (first : (numeral b x).head? = some d) :
    d ≠ 0 := by
  have positive : x ≠ 0 := by
    rintro rfl
    simp at first
  rw [numeral, head?_reverse] at first
  have last := getLast_digit_ne_zero b positive
  rw [getLast?_eq_some_getLast (digits_ne_nil_iff_ne_zero.mpr positive),
    Option.some.injEq] at first
  rw [← first]
  exact last

end Numerals

end Micron.Lib

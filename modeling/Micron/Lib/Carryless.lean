import Mathlib.RingTheory.AdjoinRoot
import Mathlib.Algebra.Field.ZMod
import Mathlib.Data.BitVec
import Mathlib.Data.Nat.Bitwise

/-!
# Words as polynomials over two elements

The bits of a number are the coefficients of a polynomial, which is evaluated at an element of a
ring of characteristic two.  The exclusive or is then the sum, a shift multiplies by a power of
the element, and the product without carries is the product.
-/

set_option autoImplicit false

namespace Micron.Carryless

open List Nat

section Values

variable {A : Type} [CommRing A]

/-- The polynomial with the bits of `n`, at `x`. -/
def val (x : A) (n : Nat) : A :=
  if n = 0 then 0 else (if n % 2 = 1 then 1 else 0) + x * val x (n / 2)
termination_by n
decreasing_by exact div_lt_self (by omega) (by decide)

theorem val_zero (x : A) : val x 0 = 0 := by
  rw [val, if_pos rfl]

theorem val_step (x : A) (n : Nat) :
    val x n = (if n % 2 = 1 then 1 else 0) + x * val x (n / 2) := by
  by_cases zero : n = 0
  · subst zero
    rw [Nat.zero_div, val_zero, if_neg (by decide), mul_zero, add_zero]
  · rw [val, if_neg zero]

theorem val_one (x : A) : val x 1 = 1 := by
  rw [val_step, if_pos rfl, show 1 / 2 = 0 from rfl, val_zero, mul_zero, add_zero]

theorem val_xor (two : (2 : A) = 0) (x : A) : ∀ a b : Nat,
    val x (a ^^^ b) = val x a + val x b := by
  intro a
  induction a using Nat.strong_induction_on with
  | _ a ih =>
    intro b
    by_cases zero : a = 0
    · subst zero
      rw [zero_xor, val_zero, zero_add]
    · have half := ih (a / 2) (div_lt_self (by omega) (by decide)) (b / 2)
      have parity : (a ^^^ b) % 2 = (a % 2 + b % 2) % 2 := by
        rw [xor_mod_two_eq, add_mod]
      rw [val_step x (a ^^^ b), xor_div_two, half, parity, val_step x a, val_step x b]
      rcases mod_two_eq_zero_or_one a with even | odd <;>
        rcases mod_two_eq_zero_or_one b with even' | odd'
      · rw [even, even']
        simp only [zero_add, zero_mod, zero_ne_one, if_false]
        ring
      · rw [even, odd']
        simp only [zero_add, one_mod, zero_ne_one, if_false, if_true]
        ring
      · rw [odd, even']
        simp only [add_zero, one_mod, zero_ne_one, if_false, if_true]
        ring
      · rw [odd, odd']
        simp only [Nat.reduceAdd, Nat.reduceMod, zero_ne_one, if_false, if_true]
        linear_combination -two

/-- The bits below `k` and those from `k` on. -/
theorem val_split (x : A) : ∀ (k n : Nat),
    val x n = val x (n % 2 ^ k) + x ^ k * val x (n / 2 ^ k) := by
  intro k
  induction k with
  | zero =>
    intro n
    rw [pow_zero, Nat.mod_one, val_zero, Nat.div_one, pow_zero, one_mul, zero_add]
  | succ k ih =>
    intro n
    have low : n % 2 ^ (k + 1) / 2 = n / 2 % 2 ^ k := by
      rw [pow_succ', Nat.mod_mul_right_div_self]
    have bit : n % 2 ^ (k + 1) % 2 = n % 2 :=
      mod_mod_of_dvd _ (Dvd.intro_left _ (pow_succ ..).symm)
    have high : n / 2 / 2 ^ k = n / 2 ^ (k + 1) := by
      rw [Nat.div_div_eq_div_mul, pow_succ']
    rw [val_step x n, val_step x (n % 2 ^ (k + 1)), low, bit, ih (n / 2), high, pow_succ]
    ring

theorem val_shift (x : A) (k n : Nat) : val x (n * 2 ^ k) = x ^ k * val x n := by
  rw [val_split x k, Nat.mul_mod_left, val_zero, zero_add,
    Nat.mul_div_cancel _ (Nat.two_pow_pos k)]

theorem map_val {B : Type} [CommRing B] (f : A →+* B) (x : A) (n : Nat) :
    f (val x n) = val (f x) n := by
  induction n using Nat.strong_induction_on with
  | _ n ih =>
    by_cases zero : n = 0
    · rw [zero, val_zero, val_zero, map_zero]
    · rw [val_step, val_step (f x), map_add, map_mul,
        ih (n / 2) (div_lt_self (by omega) (by decide))]
      split
      · rw [map_one]
      · rw [map_zero]

def poly {w : Nat} (x : A) (r : BitVec w) : A := val x r.toNat

theorem poly_xor (two : (2 : A) = 0) (x : A) {w : Nat} (r s : BitVec w) :
    poly x (r ^^^ s) = poly x r + poly x s := by
  rw [poly, BitVec.toNat_xor, val_xor two]
  rfl

theorem poly_zero (x : A) (w : Nat) : poly x 0#w = 0 := val_zero x

theorem poly_extend (x : A) {w v : Nat} (r : BitVec w) (wide : w ≤ v) :
    poly x (r.setWidth v) = poly x r := by
  rw [poly, BitVec.toNat_setWidth_of_le wide]
  rfl

/-- The low bits of a register and the ones above. -/
theorem poly_split (x : A) {w k : Nat} (r : BitVec w) :
    poly x r = poly x (r.setWidth k) + x ^ k * poly x (r >>> k) := by
  rw [poly, poly, poly, BitVec.toNat_setWidth, BitVec.toNat_ushiftRight,
    shiftRight_eq_div_pow]
  exact val_split x k r.toNat

/-- What a shift to the left drops is the part that is shifted out. -/
theorem poly_shiftLeft (x : A) {w k : Nat} (r : BitVec w) (few : k ≤ w) :
    poly x (r <<< k) + x ^ w * poly x (r >>> (w - k)) = x ^ k * poly x r := by
  rw [poly, poly, poly, BitVec.toNat_shiftLeft, BitVec.toNat_ushiftRight,
    Nat.shiftRight_eq_div_pow, Nat.shiftLeft_eq, ← val_shift x k, val_split x w (r.toNat * 2 ^ k)]
  have shifted : r.toNat * 2 ^ k / 2 ^ w = r.toNat / 2 ^ (w - k) := by
    have power : 2 ^ w = 2 ^ (w - k) * 2 ^ k := by
      rw [← pow_add, Nat.sub_add_cancel few]
    rw [power, Nat.mul_div_mul_right _ _ (Nat.two_pow_pos k)]
  rw [shifted]

/-- The partial product with the first `n` bits of `b`. -/
def clmulTo (a b : BitVec 64) (n : Nat) : BitVec 128 :=
  (List.range n).foldl
    (fun acc i => if b.getLsbD i then acc ^^^ (a.setWidth 128 <<< i) else acc) 0

def clmul (a b : BitVec 64) : BitVec 128 := clmulTo a b 64

theorem poly_clmulTo (two : (2 : A) = 0) (x : A) (a b : BitVec 64) : ∀ n : Nat, n ≤ 64 →
    poly x (clmulTo a b n) = poly x a * val x (b.toNat % 2 ^ n) := by
  intro n
  induction n with
  | zero =>
    intro _
    rw [clmulTo, range_zero, foldl_nil, pow_zero, mod_one, val_zero, mul_zero]
    exact poly_zero x 128
  | succ n ih =>
    intro few
    have bits := val_split x n (b.toNat % 2 ^ (n + 1))
    rw [mod_mod_of_dvd _ (pow_dvd_pow 2 (le_succ n))] at bits
    have top : b.toNat % 2 ^ (n + 1) / 2 ^ n = (b.getLsbD n).toNat := by
      rw [Nat.mod_pow_succ, Nat.add_mul_div_left _ _ (Nat.two_pow_pos n),
        Nat.div_eq_of_lt (Nat.mod_lt _ (Nat.two_pow_pos n)), zero_add,
        ← toNat_testBit]
      rfl
    have shifted : poly x (a.setWidth 128 <<< n) = x ^ n * poly x a := by
      have room : a.toNat * 2 ^ n < 2 ^ 128 :=
        calc a.toNat * 2 ^ n < 2 ^ 64 * 2 ^ n :=
              Nat.mul_lt_mul_of_pos_right a.isLt (Nat.two_pow_pos n)
          _ ≤ 2 ^ 64 * 2 ^ 64 := Nat.mul_le_mul_left _ (Nat.pow_le_pow_right (by decide)
              (le_of_succ_le few))
      rw [poly, BitVec.toNat_shiftLeft, BitVec.toNat_setWidth_of_le (by decide),
        shiftLeft_eq, mod_eq_of_lt room, val_shift]
      rfl
    have before := ih (le_of_succ_le few)
    rw [clmulTo] at before
    rw [clmulTo, range_succ, foldl_append, foldl_cons, foldl_nil, bits, top]
    cases b.getLsbD n with
    | false =>
      rw [if_neg Bool.false_ne_true, before, Bool.toNat_false, val_zero, mul_zero, add_zero]
    | true =>
      rw [if_pos rfl, poly_xor two, before, shifted, Bool.toNat_true, val_one]
      ring

theorem poly_clmul (two : (2 : A) = 0) (x : A) (a b : BitVec 64) :
    poly x (clmul a b) = poly x a * poly x b := by
  rw [clmul, poly_clmulTo two x a b 64 (le_refl _), mod_eq_of_lt b.isLt]
  rfl

end Values

open Polynomial

theorem val_X_eq_zero : ∀ n : Nat, val (X : (ZMod 2)[X]) n = 0 → n = 0 := by
  intro n
  induction n using Nat.strong_induction_on with
  | _ n ih =>
    intro zero
    by_contra pos
    rw [val_step] at zero
    have constant := congrArg (fun p => p.coeff 0) zero
    simp only [coeff_add, coeff_X_mul_zero, add_zero, coeff_zero] at constant
    have even : n % 2 = 0 := by
      rcases mod_two_eq_zero_or_one n with even | odd
      · exact even
      · rw [odd, if_pos rfl, coeff_one_zero] at constant
        exact absurd constant one_ne_zero
    rw [even, if_neg (by decide), zero_add] at zero
    have half := ih (n / 2) (div_lt_self (by omega) (by decide))
      ((mul_eq_zero.mp zero).resolve_left X_ne_zero)
    omega

theorem degree_val_lt : ∀ (d n : Nat), n < 2 ^ d → (val (X : (ZMod 2)[X]) n).degree < d := by
  intro d
  induction d with
  | zero =>
    intro n small
    have zero : n = 0 := by omega
    rw [zero, val_zero, degree_zero]
    exact WithBot.bot_lt_coe 0
  | succ d ih =>
    intro n small
    rw [val_step]
    refine lt_of_le_of_lt (degree_add_le _ _) (max_lt ?_ ?_)
    · split
      · rw [degree_one]
        exact_mod_cast succ_pos d
      · rw [degree_zero]
        exact WithBot.bot_lt_coe _
    · by_cases zero : val (X : (ZMod 2)[X]) (n / 2) = 0
      · rw [zero, mul_zero, degree_zero]
        exact WithBot.bot_lt_coe _
      · have below := ih (n / 2) (by rw [pow_succ] at small; omega)
        rw [degree_mul, degree_X, degree_eq_natDegree zero] at *
        have lt : (val (X : (ZMod 2)[X]) (n / 2)).natDegree < d := by exact_mod_cast below
        exact_mod_cast (show 1 + (val (X : (ZMod 2)[X]) (n / 2)).natDegree < d + 1 by omega)

/-- A polynomial below the degree of one that divides it. -/
theorem eq_zero_of_dvd {q d n : Nat} (low : 2 ^ d ≤ q) (high : q < 2 ^ (d + 1)) (small : n < 2 ^ d)
    (dvd : val (X : (ZMod 2)[X]) q ∣ val X n) : n = 0 := by
  have rest := degree_val_lt d (q % 2 ^ d) (Nat.mod_lt _ (Nat.two_pow_pos d))
  have shape : val (X : (ZMod 2)[X]) q = X ^ d + val X (q % 2 ^ d) := by
    have one : q / 2 ^ d = 1 :=
      Nat.div_eq_of_lt_le (by omega) (by rw [pow_succ] at high; omega)
    rw [val_split X d q, one, val_one, mul_one, add_comm]
  have degree : (val (X : (ZMod 2)[X]) q).degree = d := by
    rw [shape, degree_add_eq_left_of_degree_lt (by rwa [degree_X_pow]), degree_X_pow]
  have monic : (val (X : (ZMod 2)[X]) q).Monic := by
    rw [shape]
    exact monic_X_pow_add rest
  refine val_X_eq_zero n ?_
  by_contra nonzero
  exact monic.not_dvd_of_degree_lt nonzero (by rw [degree]; exact degree_val_lt d n small) dvd

theorem two_eq_zero : (2 : (ZMod 2)[X]) = 0 := CharTwo.two_eq_zero

/-- A ring in which only the multiples of the polynomial `q` are zero. -/
theorem exists_residues (q : Nat) :
    ∃ (A : Type) (_ : CommRing A) (x : A), (2 : A) = 0 ∧ val x q = 0 ∧
      ∀ n : Nat, val x n = 0 → val (X : (ZMod 2)[X]) q ∣ val X n := by
  let p : (ZMod 2)[X] := val X q
  refine ⟨AdjoinRoot p, inferInstance, AdjoinRoot.root p, ?_, ?_, ?_⟩
  · have image := congrArg (AdjoinRoot.mk p) two_eq_zero
    rwa [map_ofNat, map_zero] at image
  · rw [← AdjoinRoot.mk_X, ← map_val]
    exact AdjoinRoot.mk_self
  · intro n zero
    rwa [← AdjoinRoot.mk_X, ← map_val, AdjoinRoot.mk_eq_zero] at zero

/-- The polynomials below the degree of `q` are apart in such a ring. -/
theorem eq_of_val_eq {A : Type} [CommRing A] {x : A} (two : (2 : A) = 0) {q d : Nat}
    (low : 2 ^ d ≤ q) (high : q < 2 ^ (d + 1))
    (divides : ∀ n : Nat, val x n = 0 → val (X : (ZMod 2)[X]) q ∣ val X n) {a b : Nat}
    (small : a < 2 ^ d) (small' : b < 2 ^ d) (same : val x a = val x b) : a = b := by
  have zero : val x (a ^^^ b) = 0 := by
    rw [val_xor two, same]
    linear_combination val x b * two
  exact eq_of_xor_eq_zero
    (eq_zero_of_dvd low high (xor_lt_two_pow small small') (divides _ zero))

/-- All bits in which two numbers differ lie in a window of `d` bits. -/
def Burst (d a b : Nat) : Prop := ∃ k D, D < 2 ^ d ∧ a ^^^ b = D * 2 ^ k

/-- Where `x` has an inverse, two numbers of one residue do not differ in a burst. -/
theorem Burst.eq_of_val_eq {A : Type} [CommRing A] {x y : A} (two : (2 : A) = 0)
    (inverse : x * y = 1) {q d : Nat} (low : 2 ^ d ≤ q) (high : q < 2 ^ (d + 1))
    (divides : ∀ n : Nat, val x n = 0 → val (X : (ZMod 2)[X]) q ∣ val X n) {a b : Nat}
    (burst : Burst d a b) (same : val x a = val x b) : a = b := by
  obtain ⟨k, D, small, window⟩ := burst
  have shifted : x ^ k * val x D = 0 := by
    rw [← val_shift, ← window, val_xor two, same]
    linear_combination val x b * two
  have power : x ^ k * y ^ k = 1 := by rw [← mul_pow, inverse, one_pow]
  have zero : val x D = 0 := by linear_combination y ^ k * shifted - val x D * power
  rw [eq_zero_of_dvd low high small (divides D zero), zero_mul] at window
  exact eq_of_xor_eq_zero window

end Micron.Carryless

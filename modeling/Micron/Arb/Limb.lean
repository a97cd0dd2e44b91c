import Mathlib.Tactic.LinearCombination
import Mathlib.Tactic.Linarith
import Micron.Lib.Words

/-!
# Single limbs

The kernels of `math/arbint/bits/carry.hpp` that give a limb and what goes over its width,
and the sums and differences of double limbs of `math/arbint/div.hpp`.  A double limb is
known by the integer it stands for up to the square of the radix.
-/

set_option autoImplicit false

namespace Micron.Arb

open Micron.Lib.Words Nat Int

variable {w : Nat}

def bit (b : Bool) : BitVec w := if b then 1#w else 0#w

def addc (a b cin : BitVec w) : BitVec w × BitVec w :=
  let s0 := a + b
  let c0 := bit (BitVec.uaddOverflow a b)
  let s1 := s0 + cin
  let c1 := bit (BitVec.uaddOverflow s0 cin)
  (s1, c0 ||| c1)

def subb (a b bin : BitVec w) : BitVec w × BitVec w :=
  let d0 := a - b
  let b0 := bit (BitVec.usubOverflow a b)
  let d1 := d0 - bin
  let b1 := bit (BitVec.usubOverflow d0 bin)
  (d1, b0 ||| b1)

/-- The halves of a double limb, the lower one first. -/
def halves (w p : Nat) : BitVec w × BitVec w :=
  (BitVec.ofNat w p, BitVec.ofNat w (p / radix w))

def mulWide (a b : BitVec w) : BitVec w × BitVec w :=
  halves w (a.toNat * b.toNat % 2 ^ (2 * w))

/-- The halves of a sum of double limbs, the upper one first. -/
def add2 (ah al bh bl : BitVec w) : BitVec w × BitVec w :=
  let lo := addc al bl 0#w
  (ah + bh + lo.2, lo.1)

def sub2 (ah al bh bl : BitVec w) : BitVec w × BitVec w :=
  let lo := subb al bl 0#w
  (ah - bh - lo.2, lo.1)

theorem toNat_bit (some_ : 0 < w) (b : Bool) : (bit b : BitVec w).toNat = b.toNat := by
  cases b with
  | false => rfl
  | true => exact toNat_ofNat_of_lt (one_lt_radix some_)

theorem bit_or (b c : Bool) : (bit b ||| bit c : BitVec w) = bit (b || c) := by
  cases b <;> cases c <;> simp [bit]

theorem addc_spec (some_ : 0 < w) (a b : BitVec w) {cin : BitVec w} (small : cin.toNat ≤ 1) :
    (addc a b cin).1.toNat + radix w * (addc a b cin).2.toNat = a.toNat + b.toNat + cin.toNat ∧
      (addc a b cin).2.toNat ≤ 1 := by
  have smallA := toNat_lt a
  have smallB := toNat_lt b
  simp only [addc, bit_or, toNat_bit some_, BitVec.uaddOverflow, BitVec.toNat_add]
  change (((a.toNat + b.toNat) % radix w + cin.toNat) % radix w + radix w *
    (decide (radix w ≤ a.toNat + b.toNat) || decide (radix w ≤ (a.toNat + b.toNat) % radix w +
      cin.toNat)).toNat = _ ∧ _)
  refine ⟨?_, Bool.toNat_le _⟩
  by_cases first : radix w ≤ a.toNat + b.toNat
  · have rest : (a.toNat + b.toNat) % radix w = a.toNat + b.toNat - radix w := by
      rw [mod_eq_sub_mod first, mod_eq_of_lt (by omega)]
    have second : ¬ radix w ≤ a.toNat + b.toNat - radix w + cin.toNat := by omega
    rw [rest, mod_eq_of_lt (by omega)]
    simp only [first, second, decide_true, decide_false, Bool.or_false, Bool.toNat_true]
    omega
  · rw [mod_eq_of_lt (by omega : a.toNat + b.toNat < radix w)]
    by_cases second : radix w ≤ a.toNat + b.toNat + cin.toNat
    · rw [mod_eq_sub_mod second, mod_eq_of_lt (by omega)]
      simp only [first, second, decide_true, decide_false, Bool.false_or, Bool.toNat_true]
      omega
    · rw [mod_eq_of_lt (by omega)]
      simp [first, second]

theorem subb_spec (some_ : 0 < w) (a b : BitVec w) {bin : BitVec w} (small : bin.toNat ≤ 1) :
    (subb a b bin).1.toNat + b.toNat + bin.toNat = a.toNat + radix w * (subb a b bin).2.toNat ∧
      (subb a b bin).2.toNat ≤ 1 := by
  have smallA := toNat_lt a
  have smallB := toNat_lt b
  simp only [subb, bit_or, toNat_bit some_, BitVec.usubOverflow, BitVec.toNat_sub]
  change (radix w - bin.toNat + (radix w - b.toNat + a.toNat) % radix w) % radix w + b.toNat + bin.toNat =
    a.toNat + radix w * (decide (a.toNat < b.toNat) || decide ((radix w - b.toNat + a.toNat) % radix w <
      bin.toNat)).toNat ∧ _
  refine ⟨?_, Bool.toNat_le _⟩
  by_cases first : a.toNat < b.toNat
  · rw [mod_eq_of_lt (by omega : radix w - b.toNat + a.toNat < radix w)]
    have second : ¬ radix w - b.toNat + a.toNat < bin.toNat := by omega
    rw [mod_eq_sub_mod (by omega), mod_eq_of_lt (by omega)]
    simp only [first, second, decide_true, decide_false, Bool.or_false, Bool.toNat_true]
    omega
  · have rest : (radix w - b.toNat + a.toNat) % radix w = a.toNat - b.toNat := by
      rw [mod_eq_sub_mod (by omega), mod_eq_of_lt (by omega)]
      omega
    rw [rest]
    by_cases second : a.toNat - b.toNat < bin.toNat
    · rw [mod_eq_of_lt (by omega)]
      simp only [first, second, decide_true, decide_false, Bool.false_or, Bool.toNat_true]
      omega
    · rw [mod_eq_sub_mod (by omega), mod_eq_of_lt (by omega)]
      simp only [first, second, decide_false, Bool.or_false, Bool.toNat_false]
      omega

theorem halves_spec {p : Nat} (small : p < radix w * radix w) :
    (halves w p).1.toNat + radix w * (halves w p).2.toNat = p := by
  have high : p / radix w < radix w := Nat.div_lt_of_lt_mul small
  rw [halves, toNat_ofNat_of_lt high]
  exact toNat_ofNat_add p

theorem double (w : Nat) : 2 ^ (2 * w) = radix w * radix w := by
  rw [radix, ← pow_add, two_mul]

/-- A product with two more limbs fits a double limb. -/
theorem product_lt (a b c d : BitVec w) :
    a.toNat * b.toNat + c.toNat + d.toNat < radix w * radix w := by
  have smallA := toNat_lt a
  have smallB := toNat_lt b
  have smallC := toNat_lt c
  have smallD := toNat_lt d
  obtain ⟨r, isR⟩ : ∃ r, radix w = r + 1 := ⟨radix w - 1, by omega⟩
  rw [isR] at smallA smallB smallC smallD ⊢
  have le : a.toNat * b.toNat ≤ r * r := Nat.mul_le_mul (by omega) (by omega)
  calc a.toNat * b.toNat + c.toNat + d.toNat ≤ r * r + r + r := by omega
    _ < (r + 1) * (r + 1) := by ring_nf; omega

theorem mulWide_spec (a b : BitVec w) :
    (mulWide a b).1.toNat + radix w * (mulWide a b).2.toNat = a.toNat * b.toNat := by
  have small := product_lt a b 0#w 0#w
  simp only [BitVec.toNat_ofNat, zero_mod, add_zero] at small
  rw [mulWide, double, mod_eq_of_lt small]
  exact halves_spec small

theorem zero_toNat : (0#w).toNat = 0 := rfl

theorem zero_toNat_le : (0#w).toNat ≤ 1 := zero_le 1

theorem toNat_not_add (d : BitVec w) : (~~~d).toNat + d.toNat + 1 = radix w := by
  rw [BitVec.toNat_not]
  have := toNat_lt d
  change radix w - 1 - d.toNat + d.toNat + 1 = radix w
  omega

/-- The limb stands for the integer up to a multiple of the radix. -/
def IsLimb (x : BitVec w) (z : Int) : Prop := (x.toNat : Int) ≡ z [ZMOD (radix w : Int)]

namespace IsLimb

variable {x y : BitVec w} {a b : Int}

theorem self (x : BitVec w) : IsLimb x x.toNat := Int.ModEq.refl _

theorem congr (isA : IsLimb x a) (same : a = b) : IsLimb x b := same ▸ isA

theorem shift (isA : IsLimb x a) (c : Int) : IsLimb x (a + radix w * c) :=
  Int.ModEq.trans isA (modEq_iff_dvd.mpr ⟨c, by ring⟩)

theorem eq (isA : IsLimb x a) (low : 0 ≤ a) (high : a < radix w) : (x.toNat : Int) = a := by
  have bound := toNat_lt x
  have same : (x.toNat : Int) % radix w = a % radix w := isA
  rwa [emod_eq_of_lt (by omega) (by omega), emod_eq_of_lt low high] at same

theorem ofNat (n : Nat) : IsLimb (BitVec.ofNat w n) n := by
  have split := toNat_ofNat_add (w := w) n
  refine modEq_iff_dvd.mpr ⟨(n / radix w : Nat), ?_⟩
  have cast : ((BitVec.ofNat w n).toNat : Int) + radix w * (n / radix w : Nat) = n := by exact_mod_cast split
  linarith

theorem add (isA : IsLimb x a) (isB : IsLimb y b) : IsLimb (x + y) (a + b) := by
  refine Int.ModEq.trans ?_ (Int.ModEq.add isA isB)
  exact natCast_modEq_iff.mpr (mod_modEq _ _)

theorem mul (isA : IsLimb x a) (isB : IsLimb y b) : IsLimb (x * y) (a * b) := by
  refine Int.ModEq.trans ?_ (Int.ModEq.mul isA isB)
  exact natCast_modEq_iff.mpr (mod_modEq _ _)

theorem sub (isA : IsLimb x a) (isB : IsLimb y b) : IsLimb (x - y) (a - b) := by
  have whole : IsLimb (x - y) ((radix w - y.toNat + x.toNat : Nat) : Int) := by
    exact natCast_modEq_iff.mpr (mod_modEq _ _)
  have bound := toNat_lt y
  refine Int.ModEq.trans whole (Int.ModEq.trans ?_ (Int.ModEq.sub isA isB))
  refine modEq_iff_dvd.mpr ⟨-1, ?_⟩
  push_cast [le_of_lt bound]
  ring

end IsLimb

/-- A double limb by its halves. -/
theorem rep_two (lo : BitVec w) {hi : BitVec w} {y : Int} (isHigh : IsLimb hi y) :
    Rep 2 [lo, hi] (lo.toNat + radix w * y) := by
  refine ⟨rfl, ?_⟩
  rw [val_cons, val_cons, val_nil, mul_zero, add_zero, pow_two]
  push_cast
  exact Int.ModEq.add_left _ (Int.ModEq.mul_left' isHigh)

theorem val_two (hi lo : BitVec w) : val [lo, hi] = lo.toNat + radix w * hi.toNat := by
  rw [val_cons, val_cons, val_nil, mul_zero, add_zero]

theorem rep_add2 (some_ : 0 < w) {ah al bh bl : BitVec w} {x y : Int} (repA : Rep 2 [al, ah] x)
    (repB : Rep 2 [bl, bh] y) : Rep 2 [(add2 ah al bh bl).2, (add2 ah al bh bl).1] (x + y) := by
  obtain ⟨low, _⟩ := addc_spec some_ al bl zero_toNat_le
  have high := ((IsLimb.self ah).add (IsLimb.self bh)).add (IsLimb.self (addc al bl 0#w).2)
  have pair := rep_two (addc al bl 0#w).1 high
  refine ⟨rfl, Int.ModEq.trans pair.2 (Int.ModEq.trans ?_ (repA.2.add repB.2))⟩
  rw [val_two, val_two]
  have cast : ((addc al bl 0#w).1.toNat : Int) + radix w * (addc al bl 0#w).2.toNat =
      al.toNat + bl.toNat := by exact_mod_cast low
  have same : ((addc al bl 0#w).1.toNat : Int) + radix w * (ah.toNat + bh.toNat +
      (addc al bl 0#w).2.toNat) = ((al.toNat + radix w * ah.toNat : Nat) : Int) +
        ((bl.toNat + radix w * bh.toNat : Nat) : Int) := by
    push_cast
    linear_combination cast
  rw [same]

theorem rep_sub2 (some_ : 0 < w) {ah al bh bl : BitVec w} {x y : Int} (repA : Rep 2 [al, ah] x)
    (repB : Rep 2 [bl, bh] y) : Rep 2 [(sub2 ah al bh bl).2, (sub2 ah al bh bl).1] (x - y) := by
  obtain ⟨low, _⟩ := subb_spec some_ al bl zero_toNat_le
  have high := ((IsLimb.self ah).sub (IsLimb.self bh)).sub (IsLimb.self (subb al bl 0#w).2)
  have pair := rep_two (subb al bl 0#w).1 high
  refine ⟨rfl, Int.ModEq.trans pair.2 (Int.ModEq.trans ?_ (repA.2.sub repB.2))⟩
  rw [val_two, val_two]
  have cast : ((subb al bl 0#w).1.toNat : Int) + bl.toNat =
      al.toNat + radix w * (subb al bl 0#w).2.toNat := by exact_mod_cast low
  have same : ((subb al bl 0#w).1.toNat : Int) + radix w * (ah.toNat - bh.toNat -
      (subb al bl 0#w).2.toNat) = ((al.toNat + radix w * ah.toNat : Nat) : Int) -
        ((bl.toNat + radix w * bh.toNat : Nat) : Int) := by
    push_cast
    linear_combination cast
  rw [same]

/-- The halves of a double limb that is known up to its power. -/
theorem halves_of_rep {hi lo : BitVec w} {x y : Int} (rep : Rep 2 [lo, hi] (x + radix w * y))
    (low : 0 ≤ x) (high : x < radix w) : (lo.toNat : Int) = x ∧ IsLimb hi y := by
  have positive : (0 : Int) < radix w := by exact_mod_cast radix_pos w
  obtain ⟨c, isC⟩ := Int.modEq_iff_dvd.mp rep.2
  rw [val_two, pow_two] at isC
  push_cast at isC
  have isLow : IsLimb lo x := Int.modEq_iff_dvd.mpr ⟨hi.toNat - y + radix w * c, by linear_combination isC⟩
  have eq := isLow.eq low high
  refine ⟨eq, Int.modEq_iff_dvd.mpr ⟨c, ?_⟩⟩
  rw [eq] at isC
  refine Int.eq_of_mul_eq_mul_left (ne_of_gt positive) ?_
  linear_combination isC

theorem one_toNat (some_ : 0 < w) : (1#w).toNat = 1 := toNat_ofNat_of_lt (one_lt_radix some_)

/-- The mask of a condition, under an addition and with a limb. -/
theorem mask_true : (0#w - bit true : BitVec w) = BitVec.allOnes w := by
  rw [bit, if_pos rfl, BitVec.zero_sub, ← BitVec.neg_one_eq_allOnes]

theorem mask_false : (0#w - bit false : BitVec w) = 0#w := by
  rw [bit, if_neg Bool.false_ne_true, BitVec.sub_zero]

theorem isLimb_add_allOnes {x : BitVec w} {a : Int} (isA : IsLimb x a) :
    IsLimb (x + BitVec.allOnes w) (a - 1) := by
  have ones : IsLimb (BitVec.allOnes w) (-1) := by
    refine modEq_iff_dvd.mpr ⟨-1, ?_⟩
    rw [BitVec.toNat_allOnes]
    have cast : ((2 ^ w - 1 : Nat) : Int) = radix w - 1 := by
      rw [radix]
      have := Nat.two_pow_pos w
      omega
    rw [cast]
    ring
  exact (isA.add ones).congr (by ring)

theorem isLimb_one (some_ : 0 < w) : IsLimb (1#w) 1 := by
  have eq := IsLimb.self (1#w)
  rw [one_toNat some_] at eq
  exact eq

end Micron.Arb

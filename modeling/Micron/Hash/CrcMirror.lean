import Micron.Hash.CrcPaths

/-!
# Normal and reflected forms

Reversing the bits turns the normal form for a polynomial into the reflected form for the
reversed one.  The two constants of `rocksoft` are not the reverse of one another, and the forms
then divide by two polynomials that share `x ^ 5`.
-/

set_option autoImplicit false

namespace Micron.Crc

open Micron.Carryless List Nat
open Polynomial (X)

inductive Family where
  | ecma
  | iso
  | jones
  | rocksoft

def Family.norm : Family → Target → BitVec 64 → List (BitVec 8) → BitVec 64
  | .ecma => crc64EcmaNorm
  | .iso => crc64IsoNorm
  | .jones => crc64JonesNorm
  | .rocksoft => crc64RocksoftNorm

def Family.refl : Family → BitVec 64 → List (BitVec 8) → BitVec 64
  | .ecma => crc64EcmaRefl
  | .iso => crc64IsoRefl
  | .jones => crc64JonesRefl
  | .rocksoft => crc64RocksoftRefl

theorem getLsbD_rev {w : Nat} (r : BitVec w) (i : Nat) :
    r.reverse.getLsbD i = (decide (i < w) && r.getLsbD (w - 1 - i)) := by
  rw [BitVec.getLsbD_reverse, BitVec.getMsbD]

theorem reverse_xor {w : Nat} (r s : BitVec w) : (r ^^^ s).reverse = r.reverse ^^^ s.reverse := by
  refine BitVec.eq_of_getLsbD_eq fun i lt => ?_
  rw [BitVec.getLsbD_xor, getLsbD_rev, getLsbD_rev, getLsbD_rev, BitVec.getLsbD_xor]
  simp only [lt, decide_true, Bool.true_and]

theorem reverse_shiftLeft {w : Nat} (r : BitVec w) (n : Nat) :
    (r <<< n).reverse = r.reverse >>> n := by
  refine BitVec.eq_of_getLsbD_eq fun i lt => ?_
  rw [getLsbD_rev, BitVec.getLsbD_ushiftRight, getLsbD_rev, BitVec.getLsbD_shiftLeft]
  by_cases inside : n + i < w
  · have place : w - 1 - i - n = w - 1 - (n + i) := by omega
    have kept : ¬ w - 1 - i < n := by omega
    have below : w - 1 - i < w := by omega
    simp only [lt, inside, kept, below, place, decide_true, decide_false, Bool.not_false,
      Bool.true_and]
  · by_cases gone : w - 1 - i < n
    · simp only [inside, gone, decide_true, decide_false, Bool.not_true, Bool.false_and,
        Bool.and_false]
    · omega

theorem reverse_extend (i : BitVec 8) :
    (i.setWidth 64 <<< 56).reverse = i.reverse.setWidth 64 := by
  refine BitVec.eq_of_getLsbD_eq fun j lt => ?_
  rw [getLsbD_rev, BitVec.getLsbD_shiftLeft, BitVec.getLsbD_setWidth, BitVec.getLsbD_setWidth,
    getLsbD_rev]
  by_cases inside : j < 8
  · have place : 64 - 1 - j - 56 = 8 - 1 - j := by omega
    have kept : ¬ 64 - 1 - j < 56 := by omega
    have below : 64 - 1 - j < 64 := by omega
    have few : 8 - 1 - j < 64 := by omega
    simp only [lt, inside, kept, below, few, place, decide_true, decide_false, Bool.not_false,
      Bool.true_and]
  · have gone : 64 - 1 - j < 56 := by omega
    simp only [inside, gone, decide_true, decide_false, Bool.not_true, Bool.false_and,
      Bool.and_false]

theorem reverse_top (r : BitVec 64) :
    ((r >>> 56).setWidth 8).reverse = r.reverse.setWidth 8 := by
  refine BitVec.eq_of_getLsbD_eq fun j lt => ?_
  rw [getLsbD_rev, BitVec.getLsbD_setWidth, BitVec.getLsbD_ushiftRight, BitVec.getLsbD_setWidth,
    getLsbD_rev]
  have place : 56 + (8 - 1 - j) = 64 - 1 - j := by omega
  have wide : j < 64 := by omega
  have few : 8 - 1 - j < 8 := by omega
  simp only [lt, place, wide, few, decide_true, Bool.true_and]

theorem reverse_normShift (P r : BitVec 64) :
    (normShift P r).reverse = reflShift P.reverse r.reverse := by
  have bit : r.toNat / 2 ^ 63 = 1 ↔ r.reverse.toNat % 2 = 1 := by
    have first := getLsbD_rev r 0
    rw [BitVec.getLsbD, BitVec.getLsbD] at first
    have low := Nat.toNat_testBit r.reverse.toNat 0
    have top := Nat.toNat_testBit r.toNat 63
    rw [first] at low
    simp only [Nat.zero_lt_succ, decide_true, Bool.true_and, Nat.sub_zero,
      Nat.add_one_sub_one, pow_zero, Nat.div_one] at low
    omega
  rw [normShift, reflShift]
  by_cases set : r.toNat / 2 ^ 63 = 1
  · rw [if_pos ((top_bit r).mpr set), if_pos ((low_bit (by decide) _).mpr (bit.mp set)),
      reverse_xor, reverse_shiftLeft]
  · rw [if_neg fun wrong => set ((top_bit r).mp wrong),
      if_neg fun wrong => set (bit.mpr ((low_bit (by decide) _).mp wrong)), reverse_shiftLeft]

theorem reverse_normLut (P : BitVec 64) (i : BitVec 8) :
    (normLut P i).reverse = reflLut P.reverse i.reverse := by
  have steps : ∀ (n : Nat) (r : BitVec 64),
      ((normShift P)^[n] r).reverse = (reflShift P.reverse)^[n] r.reverse := by
    intro n
    induction n with
    | zero => exact fun _ => rfl
    | succ n ih =>
      intro r
      rw [Function.iterate_succ_apply', reverse_normShift, ih, Function.iterate_succ_apply']
  rw [normLut, steps, reverse_extend, reflLut]

theorem reverse_normByte (P r : BitVec 64) (b : BitVec 8) :
    (normByte (normLut P) r b).reverse =
      reflByte (reflLut P.reverse) r.reverse b.reverse := by
  have byte : ∀ i : BitVec 8, (i.setWidth 64).setWidth 8 = i := fun i => by
    rw [BitVec.setWidth_setWidth_of_le _ (by decide), BitVec.setWidth_eq]
  rw [normByte, reverse_xor, reverse_shiftLeft, reverse_normLut, reflByte, BitVec.setWidth_xor,
    reverse_xor, reverse_top, BitVec.setWidth_xor, byte, byte]

theorem reverse_normBytewise (P : BitVec 64) : ∀ (p : List (BitVec 8)) (init : BitVec 64),
    (normBytewise (normLut P) p init).reverse =
      reflBytewise (reflLut P.reverse) (p.map BitVec.reverse) init.reverse := by
  intro p
  induction p with
  | nil => exact fun _ => rfl
  | cons b p ih =>
    intro init
    rw [map_cons, reflBytewise, foldl_cons, ← reverse_normByte]
    exact ih _

theorem mirror_of_reverse {P Q : BitVec 64} (constants : P.reverse = Q) (target : Target)
    (init : BitVec 64) (p : List (BitVec 8)) :
    reflBytewise (reflLut Q) (p.map BitVec.reverse) init.reverse =
      (crc64Norm P (normLut P) target init p).reverse := by
  rw [crc64Norm_eq, reverse_normBytewise, constants]

def rocksoft : BitVec 64 := 0x6B2B957C8AF67BE0#64

/-- The reverse of the constant of the reflected form. -/
def rocksoftOther : BitVec 64 := 0xDBD2EA61824DABE0#64

/-- The polynomial of degree 123 that both divide, without its highest bit. -/
def commonPoly : BitVec 123 := 0x4d6ce9ee7eb25ea308a2af7f5869aa0#123

def commonShift (r : BitVec 123) : BitVec 123 :=
  if r >>> 122 ≠ 0#123 then (r <<< 1) ^^^ commonPoly else r <<< 1

def commonByte (r : BitVec 123) (b : BitVec 8) : BitVec 123 :=
  (Nat.iterate commonShift 8 r) ^^^ (b.setWidth 123 <<< 64)

/-- The remainder of an initial value and a string by the least common multiple. -/
def commonRemainder (init : BitVec 64) (p : List (BitVec 8)) : BitVec 123 :=
  p.foldl commonByte (init.setWidth 123)

/-- The product with the polynomial of `P` and the bit above it. -/
def scaled (a P : BitVec 64) : BitVec 128 := clmul a P ^^^ (a.setWidth 128 <<< 64)

section Ring

variable {A : Type} [CommRing A] {x : A}

theorem val_monic (P : BitVec 64) : val x (2 ^ 64 + P.toNat) = x ^ 64 + poly x P := by
  have low : (2 ^ 64 + P.toNat) % 2 ^ 64 = P.toNat := by omega
  have high : (2 ^ 64 + P.toNat) / 2 ^ 64 = 1 := by omega
  rw [val_split x 64, low, high, val_one, mul_one, add_comm]
  rfl

theorem poly_scaled (two : (2 : A) = 0) (a P : BitVec 64) :
    poly x (scaled a P) = poly x a * val x (2 ^ 64 + P.toNat) := by
  have shifted := @poly_shiftLeft A _ x 128 64 (a.setWidth 128) (by decide)
  have none : a.setWidth 128 >>> (128 - 64) = 0#128 := by
    refine BitVec.eq_of_toNat_eq ?_
    rw [BitVec.toNat_ushiftRight, BitVec.toNat_setWidth_of_le (by decide),
      shiftRight_eq_div_pow]
    exact div_eq_of_lt a.isLt
  rw [none, poly_zero, mul_zero, add_zero, poly_extend x a (by decide)] at shifted
  rw [scaled, poly_xor two, poly_clmul two, shifted, val_monic]
  ring

theorem poly_commonShift (two : (2 : A) = 0) (red : x ^ 123 = poly x commonPoly)
    (r : BitVec 123) : poly x (commonShift r) = x * poly x r := by
  have shifted := @poly_shiftLeft A _ x 123 1 r (by decide)
  have top : (r >>> (123 - 1)).toNat = r.toNat / 2 ^ 122 := by
    rw [BitVec.toNat_ushiftRight, shiftRight_eq_div_pow]
  rw [commonShift]
  split
  · rename_i set
    have one : r >>> (123 - 1) = 1#123 := BitVec.eq_of_toNat_eq (by
      have nonzero : (r >>> (123 - 1)).toNat ≠ 0 := fun wrong => set (BitVec.eq_of_toNat_eq wrong)
      show _ = 1
      omega)
    have unit : poly x 1#123 = 1 := val_one x
    rw [one, unit] at shifted
    rw [poly_xor two, ← red]
    linear_combination shifted
  · rename_i clear
    have zero : r >>> (123 - 1) = 0#123 := not_not.mp clear
    rw [zero, poly_zero] at shifted
    linear_combination shifted

theorem poly_commonRemainder (two : (2 : A) = 0) (red : x ^ 123 = poly x commonPoly) :
    ∀ (p : List (BitVec 8)) (r : BitVec 123),
      poly x (p.foldl commonByte r) = p.foldl (normNext x) (poly x r) := by
  intro p
  induction p with
  | nil => exact fun _ => rfl
  | cons b p ih =>
    intro r
    have shifted := @poly_shiftLeft A _ x 123 64 (b.setWidth 123) (by decide)
    have none : b.setWidth 123 >>> (123 - 64) = 0#123 := by
      refine BitVec.eq_of_toNat_eq ?_
      rw [BitVec.toNat_ushiftRight, BitVec.toNat_setWidth_of_le (by decide),
        shiftRight_eq_div_pow]
      exact div_eq_of_lt (lt_trans b.isLt (by decide))
    rw [none, poly_zero, mul_zero, add_zero, poly_extend x b (by decide)] at shifted
    rw [foldl_cons, foldl_cons, ih, commonByte, poly_xor two,
      poly_iterate (poly_commonShift two red), shifted]
    rfl

/-- In the ring of either polynomial, the register of its checksum is the common remainder. -/
theorem poly_remainder (two : (2 : A) = 0) {P : BitVec 64} (cofactor : BitVec 64)
    (red : x ^ 64 = poly x P)
    (multiple : (scaled cofactor P).toNat = 2 ^ 123 + commonPoly.toNat) (init : BitVec 64)
    (p : List (BitVec 8)) :
    poly x (commonRemainder init p) = poly x (normBytewise (normLut P) p init) := by
  have zero : val x (2 ^ 64 + P.toNat) = 0 := by
    rw [val_monic, red]
    linear_combination poly x P * two
  have whole := poly_scaled (x := x) two cofactor P
  have low : (2 ^ 123 + commonPoly.toNat) % 2 ^ 123 = commonPoly.toNat := by decide
  have high : (2 ^ 123 + commonPoly.toNat) / 2 ^ 123 = 1 := by decide
  rw [poly, multiple, zero, mul_zero, val_split x 123, low, high, val_one] at whole
  have common : x ^ 123 = poly x commonPoly := by
    rw [poly]
    linear_combination whole - val x commonPoly.toNat * two
  rw [commonRemainder, poly_commonRemainder two common, poly_normBytewise two red,
    poly_extend x init (by decide)]

end Ring

def cofactor : BitVec 64 := 0xede97530c126d5f#64

def otherCofactor : BitVec 64 := 0xb595cabe457b3df#64

/-- A number that both polynomials divide. -/
theorem common_dvd {n : Nat} (first : val (X : Polynomial (ZMod 2)) (2 ^ 64 + rocksoft.toNat) ∣
      val X n)
    (second : val (X : Polynomial (ZMod 2)) (2 ^ 64 + rocksoftOther.toNat) ∣ val X n) :
    val (X : Polynomial (ZMod 2)) (2 ^ 123 + commonPoly.toNat) ∣ val X n := by
  have two := two_eq_zero
  have power : ∀ (k : Nat), val (X : Polynomial (ZMod 2)) (k * 2 ^ 5) = X ^ 5 * val X k :=
    val_shift X 5
  have bezout : val X 0x3dfd516222d940f * val X (2 ^ 64 + rocksoft.toNat) +
      val X 0x2980f7ceca6b6ac * val X (2 ^ 64 + rocksoftOther.toNat) =
        (X ^ 5 : Polynomial (ZMod 2)) := by
    have sum : scaled 0x3dfd516222d940f#64 rocksoft ^^^ scaled 0x2980f7ceca6b6ac#64 rocksoftOther =
        32#128 := by decide +kernel
    have image := congrArg (poly (X : Polynomial (ZMod 2))) sum
    have value : poly (X : Polynomial (ZMod 2)) 32#128 = X ^ 5 := by
      have one := power 1
      rw [val_one, mul_one] at one
      exact one
    rw [poly_xor two, poly_scaled two, poly_scaled two, value] at image
    exact image
  have product : val X (2 ^ 64 + rocksoft.toNat) * val X (2 ^ 64 + rocksoftOther.toNat) =
      (X ^ 5 * val X (2 ^ 123 + commonPoly.toNat) : Polynomial (ZMod 2)) := by
    have split : 2 ^ 64 + rocksoft.toNat = otherCofactor.toNat * 2 ^ 5 := by decide
    have rest := poly_scaled (x := (X : Polynomial (ZMod 2))) two otherCofactor rocksoftOther
    have number : (scaled otherCofactor rocksoftOther).toNat = 2 ^ 123 + commonPoly.toNat := by
      decide +kernel
    rw [poly, number] at rest
    rw [rest, split, power, mul_assoc]
    rfl
  obtain ⟨a, first⟩ := first
  obtain ⟨b, second⟩ := second
  refine ⟨val X 0x3dfd516222d940f * b + val X 0x2980f7ceca6b6ac * a, ?_⟩
  refine mul_left_cancel₀ (pow_ne_zero 5 Polynomial.X_ne_zero) ?_
  rw [← mul_assoc, ← product]
  linear_combination -(val X n) * bezout +
    val X 0x3dfd516222d940f * val X (2 ^ 64 + rocksoft.toNat) * second +
    val X 0x2980f7ceca6b6ac * val X (2 ^ 64 + rocksoftOther.toNat) * first

theorem remainders_agree_iff (init : BitVec 64) (p : List (BitVec 8)) :
    normBytewise (normLut rocksoftOther) p init = normBytewise (normLut rocksoft) p init ↔
      (commonRemainder init p).toNat < 2 ^ 64 := by
  obtain ⟨A, ring, x, two, red, divides⟩ := exists_norm rocksoft
  obtain ⟨A', ring', x', two', red', divides'⟩ := exists_norm rocksoftOther
  have first := poly_remainder two cofactor red (by decide +kernel) init p
  have second := poly_remainder two' otherCofactor red' (by decide +kernel) init p
  constructor
  · intro same
    rw [same] at second
    generalize normBytewise (normLut rocksoft) p init = s at first second
    have zero : (commonRemainder init p).toNat ^^^ s.toNat = 0 := by
      refine eq_zero_of_dvd (q := 2 ^ 123 + commonPoly.toNat) (d := 123) (by decide) (by decide)
        (xor_lt_two_pow (commonRemainder init p).isLt
          (lt_trans s.isLt (by decide))) (common_dvd (divides _ ?_) (divides' _ ?_))
      · rw [val_xor two]
        show poly x _ + poly x s = 0
        rw [first]
        linear_combination poly x s * two
      · rw [val_xor two']
        show poly x' _ + poly x' s = 0
        rw [second]
        linear_combination poly x' s * two'
    rw [eq_of_xor_eq_zero zero]
    exact s.isLt
  · intro small
    have low : ∀ {B : Type} [CommRing B] (y : B),
        poly y ((commonRemainder init p).setWidth 64) = poly y (commonRemainder init p) :=
      fun y => poly_truncate small
    have other := eq_of_poly_eq two' divides' ((low x').trans second)
    have own := eq_of_poly_eq two divides ((low x).trans first)
    exact other.symm.trans own

/-- The condition under which the two forms of a checksum agree. -/
def Family.Mirrored (family : Family) (init : BitVec 64) (p : List (BitVec 8)) : Prop :=
  match family with
  | .rocksoft => (commonRemainder init p).toNat < 2 ^ 64
  | _ => True

theorem reflected_form_mirrors_iff (family : Family) (target : Target) (init : BitVec 64)
    (p : List (BitVec 8)) :
    family.refl init.reverse (p.map BitVec.reverse) = (family.norm target init p).reverse ↔
      family.Mirrored init p := by
  cases family with
  | ecma => exact iff_of_true (mirror_of_reverse (by decide +kernel) target init p) trivial
  | iso => exact iff_of_true (mirror_of_reverse (by decide +kernel) target init p) trivial
  | jones => exact iff_of_true (mirror_of_reverse (by decide +kernel) target init p) trivial
  | rocksoft =>
    have other : rocksoftOther.reverse = 0x07D5B24186574BDB#64 := by decide +kernel
    have left : Family.refl .rocksoft init.reverse (p.map BitVec.reverse) =
        (normBytewise (normLut rocksoftOther) p init).reverse := by
      rw [reverse_normBytewise, other]
      rfl
    have right : Family.norm .rocksoft target init p = normBytewise (normLut rocksoft) p init :=
      crc64Norm_eq rocksoft target init p
    rw [left, right]
    refine Iff.trans ?_ (remainders_agree_iff init p)
    constructor
    · intro same
      have again := congrArg BitVec.reverse same
      rwa [BitVec.reverse_reverse_eq, BitVec.reverse_reverse_eq] at again
    · exact congrArg BitVec.reverse

theorem rocksoft_forms_differ :
    ¬ ∀ (family : Family) (target : Target) (init : BitVec 64) (p : List (BitVec 8)),
      family.refl init.reverse (p.map BitVec.reverse) = (family.norm target init p).reverse := by
  intro all
  have one := all .rocksoft .scalar 0#64 [1#8]
  revert one
  decide +kernel

end Micron.Crc

import Micron.Hash.Crc64

/-!
# The checksum of thirty-two bits

The register has the lowest bit first: its polynomial is read in the inverse of the element by
which one bit of the message multiplies.
-/

set_option autoImplicit false

namespace Micron.Crc

open Micron.Carryless List Nat

/-- The division by the polynomial, for `n` bits of a byte with the lowest one first. -/
def divideBits {w : Nat} (P : BitVec w) : Nat → BitVec 8 → BitVec w → BitVec w
  | 0, _, r => r
  | n + 1, b, r => divideBits P n (b >>> 1) (reflShift P (r ^^^ (b &&& 1#8).setWidth w))

def divide {w : Nat} (P : BitVec w) (p : List (BitVec 8)) (r : BitVec w) : BitVec w :=
  p.foldl (fun r b => divideBits P 8 b r) r

theorem low_bit {w : Nat} (pos : 0 < w) (r : BitVec w) :
    r &&& 1#w ≠ 0#w ↔ r.toNat % 2 = 1 := by
  have one : (1#w).toNat = 1 := by
    exact Nat.mod_eq_of_lt (Nat.one_lt_two_pow (ne_of_gt pos))
  rw [ne_eq, ← BitVec.toNat_inj, BitVec.toNat_and, one, and_one_is_mod]
  show ¬ r.toNat % 2 = 0 % 2 ^ w ↔ _
  rw [zero_mod]
  omega

/-- By what one bit of a message multiplies the register. -/
def unit {A : Type} [CommRing A] (y : A) : A := poly y 0xEDB88320#32

theorem exists_refl :
    ∃ (A : Type) (_ : CommRing A) (y : A), (2 : A) = 0 ∧ unit y * y = 1 ∧
      poly y barrett.hi = 0 ∧ ∀ r s : BitVec 32, poly y r = poly y s → r = s := by
  obtain ⟨A, ring, y, two, zero, divides⟩ := exists_residues 0x1db710641
  refine ⟨A, ring, y, two, ?_, zero, fun r s same => BitVec.eq_of_toNat_eq
    (@eq_of_val_eq A ring y two _ 32 (by decide) (by decide) divides _ _ r.isLt s.isLt same)⟩
  rw [val_step, if_pos (by decide)] at zero
  show val y 0xEDB88320 * y = 1
  linear_combination zero - two

section Ring

variable {A : Type} [CommRing A] {y : A} {w : Nat} {P : BitVec w}

theorem poly_reflShift (two : (2 : A) = 0) (pos : 0 < w) (inverse : poly y P * y = 1)
    (r : BitVec w) : poly y (reflShift P r) = poly y P * poly y r := by
  have half : poly y (r >>> 1) = val y (r.toNat / 2) := by
    rw [poly, BitVec.toNat_ushiftRight, shiftRight_eq_div_pow, pow_one]
  have whole : poly y r = _ := val_step y r.toNat
  rw [reflShift, whole]
  by_cases odd : r.toNat % 2 = 1
  · rw [if_pos ((low_bit pos r).mpr odd), poly_xor two, half, if_pos odd]
    linear_combination -(val y (r.toNat / 2)) * inverse
  · rw [if_neg fun wrong => odd ((low_bit pos r).mp wrong), half, if_neg odd]
    linear_combination -(val y (r.toNat / 2)) * inverse

theorem poly_reflLut (two : (2 : A) = 0) (wide : 8 ≤ w) (inverse : poly y P * y = 1)
    (i : BitVec 8) : poly y (reflLut P i) = poly y P ^ 8 * poly y i := by
  rw [reflLut, poly_iterate (poly_reflShift two (by omega) inverse), poly_extend y i wide]

/-- One byte more in the register, `x` being the inverse of `y`. -/
def reflNext (x y : A) (a : A) (b : BitVec 8) : A := x ^ 8 * (a + poly y b)

theorem poly_reflByte (two : (2 : A) = 0) (wide : 8 ≤ w) (inverse : poly y P * y = 1)
    (r : BitVec w) (b : BitVec 8) :
    poly y (reflByte (reflLut P) r b) = reflNext (poly y P) y (poly y r) b := by
  have byte : (b.setWidth w).setWidth 8 = b := by
    rw [BitVec.setWidth_setWidth_of_le _ wide, BitVec.setWidth_eq]
  have split : poly y r = poly y (r.setWidth 8) + y ^ 8 * poly y (r >>> 8) := poly_split y r
  have power : poly y P ^ 8 * y ^ 8 = 1 := by rw [← mul_pow, inverse, one_pow]
  rw [reflByte, poly_xor two, poly_reflLut two wide inverse, BitVec.setWidth_xor, poly_xor two,
    byte, reflNext, split]
  linear_combination -(poly y (r >>> 8)) * power

theorem poly_reflBytewise (two : (2 : A) = 0) (wide : 8 ≤ w) (inverse : poly y P * y = 1) :
    ∀ (p : List (BitVec 8)) (r : BitVec w),
      poly y (reflBytewise (reflLut P) p r) = p.foldl (reflNext (poly y P) y) (poly y r) := by
  intro p
  induction p with
  | nil =>
    intro r
    rfl
  | cons b p ih =>
    intro r
    rw [foldl_cons, ← poly_reflByte two wide inverse]
    exact ih _

theorem poly_divideBits (two : (2 : A) = 0) (wide : 8 ≤ w) (inverse : poly y P * y = 1) :
    ∀ (n : Nat) (b : BitVec 8) (r : BitVec w), b.toNat < 2 ^ n →
      poly y (divideBits P n b r) = poly y P ^ n * (poly y r + poly y b) := by
  intro n
  induction n with
  | zero =>
    intro b r small
    have zero : b = 0#8 := BitVec.eq_of_toNat_eq (by
      exact lt_one_iff.mp small)
    rw [zero, poly_zero, divideBits, pow_zero, one_mul, add_zero]
  | succ n ih =>
    intro b r small
    have half : (b >>> 1).toNat = b.toNat / 2 := by
      rw [BitVec.toNat_ushiftRight, shiftRight_eq_div_pow, pow_one]
    have bit : (b &&& 1#8).toNat = b.toNat % 2 := by
      exact and_one_is_mod _
    have first : poly y (b &&& 1#8) = if b.toNat % 2 = 1 then 1 else 0 := by
      rw [poly, bit]
      rcases mod_two_eq_zero_or_one b.toNat with even | odd
      · rw [even, val_zero, if_neg (by decide)]
      · rw [odd, val_one, if_pos rfl]
    have whole : poly y b = poly y (b &&& 1#8) + y * poly y (b >>> 1) := by
      rw [first, poly, poly, half]
      exact val_step y b.toNat
    rw [divideBits, ih _ _ (by rw [half]; rw [pow_succ] at small; omega),
      poly_reflShift two (by omega) inverse, poly_xor two, poly_extend y _ wide, whole, pow_succ]
    linear_combination -(poly y P ^ n * poly y (b >>> 1)) * inverse

theorem poly_divide (two : (2 : A) = 0) (wide : 8 ≤ w) (inverse : poly y P * y = 1) :
    ∀ (p : List (BitVec 8)) (r : BitVec w),
      poly y (divide P p r) = p.foldl (reflNext (poly y P) y) (poly y r) := by
  intro p
  induction p with
  | nil =>
    intro r
    rfl
  | cons b p ih =>
    intro r
    rw [foldl_cons, reflNext, ← poly_divideBits two wide inverse 8 b r b.isLt]
    exact ih _

theorem foldl_reflNext {x : A} (inverse : x * y = 1) : ∀ (p : List (BitVec 8)) (a : A),
    p.foldl (reflNext x y) a = x ^ (8 * p.length) * (a + val y (number p)) := by
  have power : x ^ 8 * y ^ 8 = 1 := by rw [← mul_pow, inverse, one_pow]
  intro p
  induction p with
  | nil =>
    intro a
    show a = x ^ 0 * (a + val y 0)
    rw [val_zero]
    ring
  | cons b p ih =>
    intro a
    rw [foldl_cons, ih, val_number_cons, length_cons, reflNext, mul_succ, pow_add]
    linear_combination -(x ^ (8 * p.length) * val y (number p)) * power

theorem refl_advances {x : A} (inverse : x * y = 1) :
    Advances y (x ^ 128) (x ^ 128) load (reflNext x y) := by
  intro a p enough
  have len : (p.take 16).length = 16 := by
    rw [length_take]
    omega
  rw [take_drop_foldl _ 16, foldl_reflNext inverse (p.take 16), len, ← poly_load]

end Ring

section Gzip

variable {A : Type} [CommRing A] {y : A}

theorem poly_slice8Lut (two : (2 : A) = 0) (inverse : unit y * y = 1) : ∀ (k : Nat) (i : BitVec 8),
    poly y (crc32GzipReflSlice8Lut k i) = unit y ^ (8 * (k + 1)) * poly y i := by
  intro k
  induction k with
  | zero => exact fun i => poly_reflLut two (by decide) inverse i
  | succ k ih =>
    intro i
    have power : unit y ^ 8 * y ^ 8 = 1 := by rw [← mul_pow, inverse, one_pow]
    have split := @poly_split A _ y 32 8 (crc32GzipReflSlice8Lut k i)
    have entry : ∀ i, poly y (crc32GzipReflLut i) = unit y ^ 8 * poly y i :=
      poly_reflLut two (by decide) inverse
    rw [ih] at split
    rw [crc32GzipReflSlice8Lut, poly_xor two, entry, mul_succ, pow_add]
    linear_combination -(poly y (crc32GzipReflSlice8Lut k i >>> 8)) * power -
      unit y ^ 8 * split

theorem poly_four_bytes (a : BitVec 32) :
    poly y a = poly y (a.setWidth 8) + y ^ 8 * poly y ((a >>> 8).setWidth 8) +
      y ^ 16 * poly y ((a >>> 16).setWidth 8) + y ^ 24 * poly y ((a >>> 24).setWidth 8) := by
  have last : (a >>> 24).toNat < 2 ^ 8 := by
    rw [BitVec.toNat_ushiftRight, shiftRight_eq_div_pow]
    omega
  have twice : a >>> 8 >>> 8 = a >>> 16 := (BitVec.shiftRight_add a 8 8).symm
  have thrice : a >>> 16 >>> 8 = a >>> 24 := (BitVec.shiftRight_add a 16 8).symm
  rw [@poly_split A _ y 32 8 a, @poly_split A _ y 32 8 (a >>> 8), twice,
    @poly_split A _ y 32 8 (a >>> 16), thrice, ← @poly_truncate A _ y 32 8 (a >>> 24) last]
  ring

theorem poly_slice8 (two : (2 : A) = 0) (inverse : unit y * y = 1) (a b : BitVec 32) :
    poly y (slice8 a b) = unit y ^ 64 * poly y a + unit y ^ 32 * poly y b := by
  have power : ∀ n, unit y ^ n * y ^ n = 1 := fun n => by rw [← mul_pow, inverse, one_pow]
  have first := power 8
  have second := power 16
  have third := power 24
  simp only [slice8, poly_xor two, poly_slice8Lut two inverse, poly_four_bytes a,
    poly_four_bytes b]
  linear_combination
    -(unit y ^ 56 * poly y ((a >>> 8).setWidth 8) + unit y ^ 24 * poly y ((b >>> 8).setWidth 8)) *
        first -
      (unit y ^ 48 * poly y ((a >>> 16).setWidth 8) +
        unit y ^ 16 * poly y ((b >>> 16).setWidth 8)) * second -
      (unit y ^ 40 * poly y ((a >>> 24).setWidth 8) +
        unit y ^ 8 * poly y ((b >>> 24).setWidth 8)) * third

theorem poly_load32 (two : (2 : A) = 0) (b0 b1 b2 b3 : BitVec 8) :
    poly y (load32 b0 b1 b2 b3) = val y (number [b0, b1, b2, b3]) := by
  have place : ∀ (k : Nat) (b : BitVec 8), k ≤ 24 →
      poly y (b.setWidth 32 <<< k) = y ^ k * poly y b := by
    intro k b few
    have room : b.toNat * 2 ^ k < 2 ^ 32 :=
      calc b.toNat * 2 ^ k < 2 ^ 8 * 2 ^ k :=
            Nat.mul_lt_mul_of_pos_right b.isLt (Nat.two_pow_pos k)
        _ ≤ 2 ^ 8 * 2 ^ 24 := Nat.mul_le_mul_left _ (Nat.pow_le_pow_right (by decide) few)
    rw [poly, BitVec.toNat_shiftLeft, BitVec.toNat_setWidth_of_le (by decide), shiftLeft_eq,
      mod_eq_of_lt room, val_shift]
    rfl
  simp only [load32, poly_xor two, val_number_cons]
  rw [place 8 b1 (by decide), place 16 b2 (by decide), place 24 b3 (by decide),
    poly_extend y b0 (by decide)]
  show _ = _ + y ^ 8 * (_ + y ^ 8 * (_ + y ^ 8 * (_ + y ^ 8 * val y 0)))
  rw [val_zero]
  ring

theorem poly_crc32ReflSlice8 (two : (2 : A) = 0) (inverse : unit y * y = 1)
    (p : List (BitVec 8)) (r : BitVec 32) :
    poly y (crc32ReflSlice8 p r) = p.foldl (reflNext (unit y) y) (poly y r) := by
  induction p, r using crc32ReflSlice8.induct with
  | case1 b0 b1 b2 b3 b4 b5 b6 b7 p r ih =>
    have power : unit y ^ 32 * y ^ 32 = 1 := by rw [← mul_pow, inverse, one_pow]
    have eight : (b0 :: b1 :: b2 :: b3 :: b4 :: b5 :: b6 :: b7 :: p) =
        ([b0, b1, b2, b3] ++ [b4, b5, b6, b7]) ++ p := rfl
    rw [crc32ReflSlice8, ih, eight, foldl_append, foldl_reflNext inverse (_ ++ _),
      poly_slice8 two inverse, poly_xor two, poly_load32 two, poly_load32 two,
      val_number_append]
    refine congrArg (fun t => p.foldl (reflNext (unit y) y) t) ?_
    show _ = unit y ^ 64 * (poly y r + (_ + y ^ 32 * _))
    linear_combination
      -(unit y ^ 32 * val y (number [b4, b5, b6, b7])) * power
  | case2 p r few =>
    rw [crc32ReflSlice8]
    · exact poly_reflBytewise two (by decide) inverse p r
    · exact few

/-! ## The last step -/

theorem clmulTo_lt {m : Nat} {a b : BitVec 64} (small : b.toNat < 2 ^ (m + 1)) : ∀ n : Nat,
    (clmulTo a b n).toNat < 2 ^ (64 + m) := by
  intro n
  induction n with
  | zero => exact Nat.two_pow_pos _
  | succ n ih =>
    rw [clmulTo, range_succ, foldl_append, foldl_cons, foldl_nil]
    by_cases set : b.getLsbD n = true
    · have few : n ≤ m := by
        by_contra far
        have bit : b.toNat.testBit n = false := testBit_eq_false_of_lt
          (lt_of_lt_of_le small (Nat.pow_le_pow_right (by decide) (by omega)))
        exact absurd (set.symm.trans bit) (by decide)
      rw [if_pos set, BitVec.toNat_xor]
      refine xor_lt_two_pow ih ?_
      rw [BitVec.toNat_shiftLeft, BitVec.toNat_setWidth_of_le (by decide), shiftLeft_eq]
      calc a.toNat * 2 ^ n % 2 ^ 128 ≤ a.toNat * 2 ^ n := mod_le _ _
        _ < 2 ^ 64 * 2 ^ n := Nat.mul_lt_mul_of_pos_right a.isLt (Nat.two_pow_pos n)
        _ ≤ 2 ^ 64 * 2 ^ m := Nat.mul_le_mul_left _ (Nat.pow_le_pow_right (by decide) few)
        _ = 2 ^ (64 + m) := (pow_add ..).symm
    · rw [if_neg set]
      exact ih

/-- The multiple of the polynomial that is added has the low half of `v` in its own. -/
theorem barrett_low (v : BitVec 128) :
    low (v ^^^ clmul (low (clmul (low v) barrett.lo)) barrett.hi) = 0#64 := by
  obtain ⟨A, ring, z, two, zero, divides⟩ := exists_residues (2 ^ 64)
  have cut : z ^ 64 = 0 := by
    have power := val_shift z 64 1
    rw [one_mul, zero, val_one, mul_one] at power
    exact power.symm
  have lows : ∀ u : BitVec 128, poly z (low u) = poly z u := fun u => by
    rw [poly_parts, cut, zero_mul, add_zero]
  have inverse : poly z barrett.lo * poly z barrett.hi = 1 := by
    have one : low (clmul barrett.lo barrett.hi) = 1#64 := by decide +kernel
    rw [← poly_clmul two, ← lows, one]
    exact val_one z
  refine BitVec.eq_of_toNat_eq (@eq_of_val_eq A ring z two _ 64 (by decide) (by decide) divides
    _ _ (BitVec.isLt _) (by decide) ?_)
  show poly z _ = val z 0
  rw [lows, poly_xor two, poly_clmul two, lows, poly_clmul two, lows, val_zero]
  linear_combination poly z v * inverse + poly z v * two

theorem poly_barrettReduce (two : (2 : A) = 0) (inverse : unit y * y = 1)
    (zero : poly y barrett.hi = 0) (hi : poly y mults.hi = unit y ^ 64) (x0 : BitVec 128) :
    poly y (barrettReduce x0) = unit y ^ 128 * poly y x0 := by
  have power : unit y ^ 64 * y ^ 64 = 1 := by rw [← mul_pow, inverse, one_pow]
  unfold barrettReduce
  dsimp only
  have first : poly y (clmul (low x0) mults.hi ^^^ (x0 >>> 64)) = unit y ^ 64 * poly y x0 := by
    have split : poly y x0 = poly y (low x0) + y ^ 64 * poly y (x0 >>> 64) := poly_split y x0
    rw [poly_xor two, poly_clmul two, hi, split]
    linear_combination -(poly y (x0 >>> 64)) * power
  have below : (clmul (low x0) mults.hi ^^^ (x0 >>> 64)).toNat < 2 ^ 96 := by
    refine xor_lt_two_pow (lt_trans (@clmulTo_lt 31 _ _ (by decide) 64) (by decide)) ?_
    rw [BitVec.toNat_ushiftRight, shiftRight_eq_div_pow]
    omega
  generalize clmul (low x0) mults.hi ^^^ (x0 >>> 64) = v at first below ⊢
  have clear := barrett_low v
  have second : (clmul (low (clmul (low v) barrett.lo)) barrett.hi).toNat < 2 ^ 96 :=
    @clmulTo_lt 32 _ _ (by decide) 64
  have multiple : poly y (v ^^^ clmul (low (clmul (low v) barrett.lo)) barrett.hi) = poly y v := by
    rw [poly_xor two, poly_clmul two, zero, mul_zero, add_zero]
  have sum : (v ^^^ clmul (low (clmul (low v) barrett.lo)) barrett.hi).toNat < 2 ^ 96 := by
    exact xor_lt_two_pow below second
  generalize v ^^^ clmul (low (clmul (low v) barrett.lo)) barrett.hi = u at clear multiple sum ⊢
  have short : (u >>> 64).toNat < 2 ^ 32 := by
    rw [BitVec.toNat_ushiftRight, shiftRight_eq_div_pow]
    omega
  have split : poly y u = poly y (low u) + y ^ 64 * poly y (u >>> 64) := poly_split y u
  rw [clear, poly_zero, zero_add, multiple, first] at split
  rw [poly_truncate short]
  linear_combination -(unit y ^ 64) * split - (poly y (u >>> 64)) * power

end Gzip

end Micron.Crc

import Micron.Hash.CrcPaths

/-!
# Burst errors

Two messages of one length that differ only inside a window no wider than the register
have different checksums if and only if the polynomial has the constant term one: then
`x` has an inverse and the place of the window does not matter.
-/

set_option autoImplicit false

namespace Micron.Crc

open Micron.Carryless List

theorem number_injective {p q : List (BitVec 8)} (len : p.length = q.length)
    (same : number p = number q) : p = q := by
  induction p generalizing q with
  | nil => exact (length_eq_zero_iff.mp len.symm).symm
  | cons b p ih =>
    obtain ⟨c, q, rfl⟩ := exists_cons_of_length_eq_add_one len.symm
    change number p * 2 ^ 8 + b.toNat = number q * 2 ^ 8 + c.toNat at same
    rw [BitVec.eq_of_toNat_eq (show b.toNat = c.toNat by omega),
      ih (Nat.succ.inj len) (by omega)]

theorem crc64Norm_detects {P : BitVec 64} (odd : P.toNat % 2 = 1) (t t' : Target)
    (init : BitVec 64) {p q : List (BitVec 8)} (len : p.length = q.length)
    (burst : Burst 64 (number p.reverse) (number q.reverse))
    (same : crc64Norm P (normLut P) t init p = crc64Norm P (normLut P) t' init q) : p = q := by
  obtain ⟨A, ring, x, two, red, divides⟩ := exists_norm P
  have inverse : x * (x ^ 63 - val x (P.toNat / 2)) = 1 := by
    rw [poly, val_step, if_pos odd] at red
    linear_combination red
  have power : x ^ 64 * (x ^ 63 - val x (P.toNat / 2)) ^ 64 = 1 := by
    rw [← mul_pow, inverse, one_pow]
  have values := congrArg (poly x) same
  rw [crc64Norm_eq, crc64Norm_eq, poly_normBytewise two red, poly_normBytewise two red,
    foldl_normNext, foldl_normNext, len] at values
  have residues : val x (number p.reverse) = val x (number q.reverse) := by
    linear_combination (x ^ 63 - val x (P.toNat / 2)) ^ 64 * values -
      (val x (number p.reverse) - val x (number q.reverse)) * power
  refine reverse_injective (number_injective ?_
    (burst.eq_of_val_eq two inverse (by omega) (by omega) divides residues))
  rw [length_reverse, length_reverse, len]

/-- What a polynomial without constant term does not see: eight bytes that hold the polynomial
itself, divided by `x`. -/
def unseen (P : BitVec 64) : List (BitVec 8) :=
  (bytes 8 (BitVec.ofNat 64 ((2 ^ 64 + P.toNat) / 2))).reverse

theorem number_unseen (P : BitVec 64) :
    number (unseen P).reverse = (2 ^ 64 + P.toNat) / 2 := by
  rw [unseen, reverse_reverse, number_bytes 8 _ (BitVec.isLt _), BitVec.toNat_ofNat]
  exact Nat.mod_eq_of_lt (by omega)

theorem crc64Norm_unseen {P : BitVec 64} (even : P.toNat % 2 = 0) (t t' : Target) :
    crc64Norm P (normLut P) t 0#64 (unseen P) =
      crc64Norm P (normLut P) t' 0#64 (List.replicate 8 0#8) := by
  obtain ⟨A, ring, x, two, red, divides⟩ := exists_norm P
  have low : (2 ^ 64 + P.toNat) % 2 ^ 64 = P.toNat := by omega
  have high : (2 ^ 64 + P.toNat) / 2 ^ 64 = 1 := by omega
  have zero : x * val x ((2 ^ 64 + P.toNat) / 2) = 0 := by
    have whole := val_step x (2 ^ 64 + P.toNat)
    rw [if_neg (by omega), val_split x 64, low, high, val_one, ← poly, ← red] at whole
    linear_combination -whole + x ^ 64 * two
  refine eq_of_poly_eq two divides ?_
  rw [crc64Norm_eq, crc64Norm_eq, poly_normBytewise two red, poly_normBytewise two red,
    foldl_normNext, foldl_normNext, number_unseen, poly_zero, reverse_replicate,
    show number (List.replicate 8 0#8) = 0 from rfl, val_zero]
  linear_combination x ^ 63 * zero

/-- On any two paths, messages of one length with one checksum do not differ in a burst of
up to 64 bits. -/
def DetectsBursts (crc : Target → BitVec 64 → List (BitVec 8) → BitVec 64) : Prop :=
  ∀ (t t' : Target) (init : BitVec 64) (p q : List (BitVec 8)), p.length = q.length →
    Burst 64 (number p.reverse) (number q.reverse) → crc t init p = crc t' init q → p = q

theorem crc64Norm_detects_iff (P : BitVec 64) :
    DetectsBursts (crc64Norm P (normLut P)) ↔ P.toNat % 2 = 1 := by
  constructor
  · intro detects
    by_contra notOdd
    have even : P.toNat % 2 = 0 := by omega
    have zeros : number (List.replicate 8 0#8).reverse = 0 := rfl
    have same := detects .scalar .scalar 0#64 (unseen P) (List.replicate 8 0#8) rfl
      ⟨0, (2 ^ 64 + P.toNat) / 2, by omega,
        by rw [zeros, number_unseen, Nat.xor_zero, pow_zero, mul_one]⟩ (crc64Norm_unseen even _ _)
    have bits := number_unseen P
    rw [same, zeros] at bits
    omega
  · intro odd t t' init p q
    exact crc64Norm_detects odd t t' init

/-- A checksum with the highest bit first detects every burst of up to 64 bits if and only
if its polynomial has a constant term, which that of `rocksoft` does not. -/
theorem crc64_detects_bursts_iff :
    (∀ P, DetectsBursts (crc64Norm P (normLut P)) ↔ P.toNat % 2 = 1) ∧
      DetectsBursts crc64EcmaNorm ∧ DetectsBursts crc64IsoNorm ∧ DetectsBursts crc64JonesNorm ∧
      ¬ DetectsBursts crc64RocksoftNorm := by
  refine ⟨crc64Norm_detects_iff, ?_, ?_, ?_, fun detects => ?_⟩
  · exact (crc64Norm_detects_iff 0x42F0E1EBA9EA3693#64).mpr (by decide)
  · exact (crc64Norm_detects_iff 0x1B#64).mpr (by decide)
  · exact (crc64Norm_detects_iff 0x95AC9329AC4BC9B5#64).mpr (by decide)
  · exact absurd ((crc64Norm_detects_iff 0x6B2B957C8AF67BE0#64).mp detects) (by decide)

/-- Messages with one `crc32` do not differ in a burst of up to 32 bits, on any path. -/
theorem crc32_detects_bursts (t t' : Target) (init : BitVec 32) {p q : List (BitVec 8)}
    (len : p.length = q.length) (burst : Burst 32 (number p) (number q))
    (same : crc32GzipRefl t init p = crc32GzipRefl t' init q) : p = q := by
  obtain ⟨A, ring, y, two, zero, divides⟩ := exists_residues 0x1db710641
  have inverse : unit y * y = 1 := by
    rw [val_step, if_pos (by decide)] at zero
    change val y 0xEDB88320 * y = 1
    linear_combination zero - two
  have power : unit y ^ (8 * q.length) * y ^ (8 * q.length) = 1 := by
    rw [← mul_pow, inverse, one_pow]
  rw [crc32GzipRefl_eq, crc32GzipRefl_eq] at same
  have values := congrArg (poly y) ((BitVec.xor_left_inj _).mp same)
  rw [poly_divide two (by decide) inverse, poly_divide two (by decide) inverse, ← unit,
    foldl_reflNext inverse, foldl_reflNext inverse, len] at values
  have residues : val y (number p) = val y (number q) := by
    linear_combination y ^ (8 * q.length) * values -
      (val y (number p) - val y (number q)) * power
  exact number_injective len (burst.eq_of_val_eq two ((mul_comm _ _).trans inverse) (by decide)
    (by decide) divides residues)

theorem crc32_detects_bursts_one_byte :
    crc32GzipRefl .x86 0#32 (List.replicate 20 1#8) ≠
      crc32GzipRefl .scalar 0#32 (List.replicate 19 1#8 ++ [7#8]) := by
  intro same
  refine absurd (crc32_detects_bursts .x86 .scalar 0#32 (by decide) ?_ same) (by decide)
  exact ⟨152, 6, by decide, by decide⟩

end Micron.Crc

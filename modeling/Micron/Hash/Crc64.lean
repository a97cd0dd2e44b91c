import Micron.Hash.CrcFold

/-!
# The checksums of sixty-four bits

The register stands for the message before it, modulo the polynomial, with the highest bit first.
-/

set_option autoImplicit false

namespace Micron.Crc

open Micron.Carryless List Nat

theorem top_bit (r : BitVec 64) :
    r &&& 0x8000000000000000#64 ≠ 0#64 ↔ r.toNat / 2 ^ 63 = 1 := by
  have mask : 0x8000000000000000#64 = BitVec.twoPow 64 63 := by decide
  have bit := toNat_testBit r.toNat 63
  rw [mask, BitVec.and_twoPow, BitVec.getLsbD, ← mask]
  cases found : r.toNat.testBit 63 with
  | false =>
    rw [found] at bit
    simp only [Bool.toNat_false] at bit
    exact ⟨fun wrong => absurd rfl wrong, fun wrong => by omega⟩
  | true =>
    rw [found] at bit
    simp only [Bool.toNat_true] at bit
    exact ⟨fun _ => by omega, fun _ => by decide⟩

theorem top_shift (r : BitVec 64) : r >>> 63 ≠ 0#64 ↔ r.toNat / 2 ^ 63 = 1 := by
  rw [ne_eq, ← BitVec.toNat_inj, BitVec.toNat_ushiftRight, shiftRight_eq_div_pow]
  show ¬ r.toNat / 2 ^ 63 = 0 ↔ _
  omega

section Ring

variable {A : Type} [CommRing A] {x : A} {P : BitVec 64}

/-- The ring in which the polynomial `P` with the bit above it is zero. -/
theorem exists_norm (P : BitVec 64) :
    ∃ (A : Type) (_ : CommRing A) (x : A), (2 : A) = 0 ∧ x ^ 64 = poly x P ∧
      ∀ n : Nat, val x n = 0 → val (Polynomial.X : Polynomial (ZMod 2)) (2 ^ 64 + P.toNat) ∣
        val Polynomial.X n := by
  obtain ⟨A, ring, x, two, zero, divides⟩ := exists_residues (2 ^ 64 + P.toNat)
  refine ⟨A, ring, x, two, ?_, divides⟩
  have low : (2 ^ 64 + P.toNat) % 2 ^ 64 = P.toNat := by omega
  have high : (2 ^ 64 + P.toNat) / 2 ^ 64 = 1 := by omega
  rw [val_split x 64, low, high, val_one] at zero
  rw [poly]
  linear_combination zero - val x P.toNat * two

theorem eq_of_poly_eq (two : (2 : A) = 0)
    (divides : ∀ n : Nat, val x n = 0 →
      val (Polynomial.X : Polynomial (ZMod 2)) (2 ^ 64 + P.toNat) ∣ val Polynomial.X n)
    {r s : BitVec 64} (same : poly x r = poly x s) : r = s := by
  exact BitVec.eq_of_toNat_eq
    (@eq_of_val_eq A _ x two _ 64 (by omega) (by omega) divides _ _ r.isLt s.isLt same)

theorem poly_normShift (two : (2 : A) = 0) (red : x ^ 64 = poly x P) (r : BitVec 64) :
    poly x (normShift P r) = x * poly x r := by
  have shifted := @poly_shiftLeft A _ x 64 1 r (by decide)
  have top : poly x (r >>> (64 - 1)) = val x (r.toNat / 2 ^ 63) := by
    rw [poly, BitVec.toNat_ushiftRight, shiftRight_eq_div_pow]
  rw [top, pow_one] at shifted
  rw [normShift]
  by_cases set : r.toNat / 2 ^ 63 = 1
  · rw [set, val_one] at shifted
    rw [if_pos ((top_bit r).mpr set), poly_xor two, ← red]
    linear_combination shifted
  · have clear : r.toNat / 2 ^ 63 = 0 := by omega
    rw [clear, val_zero] at shifted
    rw [if_neg fun wrong => set ((top_bit r).mp wrong)]
    linear_combination shifted

theorem poly_iterate {w : Nat} {f : BitVec w → BitVec w} {c : A}
    (one : ∀ r, poly x (f r) = c * poly x r) (n : Nat) (r : BitVec w) :
    poly x (f^[n] r) = c ^ n * poly x r := by
  induction n with
  | zero => rw [pow_zero, one_mul, Function.iterate_zero, id]
  | succ n ih =>
    rw [Function.iterate_succ_apply', one, ih]
    ring

theorem poly_normLut (two : (2 : A) = 0) (red : x ^ 64 = poly x P) (i : BitVec 8) :
    poly x (normLut P i) = x ^ 64 * poly x i := by
  have shifted := @poly_shiftLeft A _ x 64 56 (i.setWidth 64) (by decide)
  have none : i.setWidth 64 >>> (64 - 56) = 0#64 := by
    refine BitVec.eq_of_toNat_eq ?_
    rw [BitVec.toNat_ushiftRight, BitVec.toNat_setWidth_of_le (by decide),
      shiftRight_eq_div_pow]
    exact div_eq_of_lt i.isLt
  rw [none, poly_zero, mul_zero, add_zero, poly_extend x i (by decide)] at shifted
  rw [normLut, poly_iterate (poly_normShift two red), shifted]
  ring

def normNext (x : A) (a : A) (b : BitVec 8) : A := x ^ 8 * a + x ^ 64 * poly x b

theorem poly_normByte (two : (2 : A) = 0) (red : x ^ 64 = poly x P) (r : BitVec 64)
    (b : BitVec 8) : poly x (normByte (normLut P) r b) = normNext x (poly x r) b := by
  have shifted := @poly_shiftLeft A _ x 64 8 r (by decide)
  have top : (r >>> 56).toNat < 2 ^ 8 := by
    rw [BitVec.toNat_ushiftRight, shiftRight_eq_div_pow]
    omega
  have byte : (b.setWidth 64).toNat < 2 ^ 8 := by
    exact b.isLt
  rw [normByte, poly_xor two, poly_normLut two red, BitVec.setWidth_xor, poly_xor two,
    poly_truncate top, poly_truncate byte, poly_extend x b (by decide), normNext]
  linear_combination shifted

theorem poly_normBytewise (two : (2 : A) = 0) (red : x ^ 64 = poly x P) :
    ∀ (p : List (BitVec 8)) (r : BitVec 64),
      poly x (normBytewise (normLut P) p r) = p.foldl (normNext x) (poly x r) := by
  intro p
  induction p with
  | nil =>
    intro r
    rfl
  | cons b p ih =>
    intro r
    rw [foldl_cons, ← poly_normByte two red]
    exact ih _

theorem foldl_normNext : ∀ (p : List (BitVec 8)) (a : A),
    p.foldl (normNext x) a = x ^ (8 * p.length) * a + x ^ 64 * val x (number p.reverse) := by
  intro p
  induction p with
  | nil =>
    intro a
    show a = x ^ 0 * a + x ^ 64 * val x 0
    rw [val_zero]
    ring
  | cons b p ih =>
    intro a
    rw [foldl_cons, ih, reverse_cons, val_number_append, val_number_cons,
      length_reverse, length_cons, normNext, mul_succ, pow_add]
    show _ = _ + x ^ 64 * (_ + _ * (_ + _ * val x 0))
    rw [val_zero]
    ring

theorem poly_ldBe (p : List (BitVec 8)) :
    poly x (ldBe p) = val x (number (p.take 16).reverse) := by
  have whole : (p.take 16).reverse.take 16 = (p.take 16).reverse :=
    take_of_length_le (by rw [length_reverse]; exact length_take_le 16 p)
  rw [ldBe, poly_load, whole]

theorem take_drop_foldl {B : Type} (g : B → BitVec 8 → B) (n : Nat) (p : List (BitVec 8)) (a : B) :
    p.foldl g a = (p.drop n).foldl g ((p.take n).foldl g a) := by
  rw [← foldl_append, take_append_drop]

theorem norm_advances : Advances x (x ^ 128) (x ^ 64) ldBe (normNext x) := by
  intro a p enough
  have len : (p.take 16).length = 16 := by
    rw [length_take]
    omega
  rw [take_drop_foldl _ 16, foldl_normNext (p.take 16), len, ← poly_ldBe]
  refine congrArg (fun t => (p.drop 16).foldl (normNext x) t) ?_
  ring

theorem poly_xpowMod (two : (2 : A) = 0) (red : x ^ 64 = poly x P) (n : Nat) :
    poly x (xpowMod n P) = x ^ n := by
  have one : ∀ r : BitVec 64,
      poly x ((r <<< 1) ^^^ (if r >>> 63 ≠ 0#64 then P else 0#64)) = x * poly x r := by
    intro r
    rw [← poly_normShift two red, normShift]
    by_cases set : r.toNat / 2 ^ 63 = 1
    · rw [if_pos ((top_shift r).mpr set), if_pos ((top_bit r).mpr set)]
    · rw [if_neg fun wrong => set ((top_shift r).mp wrong),
        if_neg fun wrong => set ((top_bit r).mp wrong), BitVec.xor_zero]
  have unit : poly x 1#64 = 1 := val_one x
  rw [xpowMod, poly_iterate one, unit, mul_one]

theorem poly_kconst (two : (2 : A) = 0) (red : x ^ 64 = poly x P) (n : Nat) (acc : BitVec 128) :
    poly x (fold (kconst P n) acc) = x ^ n * poly x acc :=
  poly_fold two (poly_xpowMod two red n)
    ((poly_xpowMod two red (n + 64)).trans (pow_add x n 64)) acc

/-- The first chunk takes the initial value in. -/
theorem head_advances (two : (2 : A) = 0) (init : BitVec 64) {p : List (BitVec 8)}
    (enough : 16 ≤ p.length) :
    p.foldl (normNext x) (poly x init) =
      (p.drop 16).foldl (normNext x) (x ^ 64 * poly x (ldBe (headOf init p))) := by
  have len : (p.take 16).length = 16 := by
    rw [length_take]
    omega
  have lens : ∀ n (v : BitVec 64), (bytes n v).length = n := by
    intro n
    induction n with
    | zero => exact fun _ => rfl
    | succ n ih => exact fun v => congrArg Nat.succ (ih _)
  have same : (p.take 16).length = ((bytes 8 init).reverse ++ List.replicate 8 0#8).length := by
    rw [len, length_append, length_reverse, lens, length_replicate]
  have zeros : ∀ q : List (BitVec 8), val x (number (List.replicate 8 0#8 ++ q)) =
      x ^ 64 * val x (number q) := by
    intro q
    rw [val_number_append, length_replicate]
    show val x 0 + _ = _
    rw [val_zero, zero_add]
  have whole : (headOf init p).take 16 = headOf init p :=
    take_of_length_le (by rw [headOf, length_zipWith, len]; exact min_le_left _ _)
  rw [poly_ldBe, whole, headOf, reverse_zipWith same, val_number_xor two (by
      rw [length_reverse, length_reverse]
      exact same), reverse_append, reverse_reverse, reverse_replicate, zeros,
    number_bytes 8 init init.isLt, take_drop_foldl _ 16, foldl_normNext (p.take 16), len]
  refine congrArg (fun t => (p.drop 16).foldl (normNext x) t) ?_
  show _ = x ^ 64 * (_ + x ^ 64 * poly x init)
  ring

/-- The fold up to the last whole chunk, whose register goes on over the rest. -/
theorem poly_folded (two : (2 : A) = 0) (red : x ^ 64 = poly x P) {folded : List (BitVec 8) ×
    BitVec 128} {buf : List (BitVec 8)} {a : A} (len : folded.1.length = buf.length % 16)
    (same : folded.1.foldl (normNext x) (x ^ 64 * poly x folded.2) = a) :
    poly x (normBytewise (normLut P) (folded.1.take (buf.length % 16))
      (normBytewise (normLut P) (bytes 16 folded.2).reverse 0#64)) = a := by
  rw [poly_normBytewise two red, poly_normBytewise two red, poly_zero,
    foldl_normNext (bytes 16 folded.2).reverse, reverse_reverse,
    number_bytes 16 folded.2 folded.2.isLt, mul_zero, zero_add,
    take_of_length_le (le_of_eq len)]
  exact same

theorem poly_crc64NormClmul (two : (2 : A) = 0) (red : x ^ 64 = poly x P) (init : BitVec 64)
    {buf : List (BitVec 8)} (enough : 16 ≤ buf.length) :
    poly x (crc64NormClmul P init buf (normLut P)) = buf.foldl (normNext x) (poly x init) := by
  have folds := poly_kconst two red 128
  rw [head_advances two init enough]
  unfold crc64NormClmul
  dsimp only
  split
  · rename_i many
    have folds4 : ∀ a, poly x (fold (kconst P 512) a) = (x ^ 128) ^ 4 * poly x a := fun a => by
      rw [poly_kconst two red, ← pow_mul]
    have left : (buf.drop 64).length = buf.length - 64 := length_drop
    obtain ⟨room, len, same⟩ := fourLoop_run two (@norm_advances A _ x) folds4
      (buf.length / 16 - 4) (buf.drop 64) ⟨ldBe (headOf init buf), ldBe (buf.drop 16),
        ldBe (buf.drop 32), ldBe (buf.drop 48)⟩ (by omega)
    generalize fourLoop (kconst P 512) ldBe (buf.length / 16 - 4) (buf.drop 64) _ = l
      at room len same ⊢
    obtain ⟨len', same'⟩ := chunkLoop_run two (@norm_advances A _ x) folds l.1 l.2.1
      ((fold (kconst P 384) l.2.2.a0 ^^^ fold (kconst P 256) l.2.2.a1) ^^^
        (fold (kconst P 128) l.2.2.a2 ^^^ l.2.2.a3)) room
    refine poly_folded two red (by omega) (same'.trans ?_)
    have total : poly x ((fold (kconst P 384) l.2.2.a0 ^^^ fold (kconst P 256) l.2.2.a1) ^^^
        (fold (kconst P 128) l.2.2.a2 ^^^ l.2.2.a3)) = l.2.2.total x (x ^ 128) := by
      simp only [poly_xor two, poly_kconst two red, Four.total]
      ring
    rw [total, same, norm_advances _ (buf.drop 16) (by rw [length_drop]; omega),
      drop_drop, norm_advances _ (buf.drop 32) (by rw [length_drop]; omega),
      drop_drop, norm_advances _ (buf.drop 48) (by rw [length_drop]; omega),
      drop_drop]
    refine congrArg (fun t => (buf.drop 64).foldl (normNext x) (x ^ 64 * t)) ?_
    rw [Four.total]
    ring
  · have left : (buf.drop 16).length = buf.length - 16 := length_drop
    obtain ⟨len, same⟩ := chunkLoop_run two (@norm_advances A _ x) folds (buf.length / 16 - 1)
      (buf.drop 16) (ldBe (headOf init buf)) (by omega)
    exact poly_folded two red (by omega) same

end Ring

theorem crc64NormClmul_eq (P init : BitVec 64) {buf : List (BitVec 8)}
    (enough : 16 ≤ buf.length) :
    crc64NormClmul P init buf (normLut P) = normBytewise (normLut P) buf init := by
  obtain ⟨A, ring, x, two, red, divides⟩ := exists_norm P
  refine eq_of_poly_eq two divides ?_
  rw [poly_crc64NormClmul two red init enough, poly_normBytewise two red]

end Micron.Crc

import Micron.Hash.Crc

/-!
# Accumulators and registers as residues

An accumulator that is folded stands for the register in which its bytes would leave the
checksum.  The register of a message is that of what is left, from the accumulator so far.
-/

set_option autoImplicit false

namespace Micron.Crc

open Micron.Carryless List Nat

section Residues

variable {A : Type} [CommRing A] {x : A}

theorem poly_truncate {w k : Nat} {r : BitVec w} (small : r.toNat < 2 ^ k) :
    poly x (r.setWidth k) = poly x r := by
  rw [poly, BitVec.toNat_setWidth, mod_eq_of_lt small]
  rfl

theorem val_number_cons (b : BitVec 8) (p : List (BitVec 8)) :
    val x (number (b :: p)) = poly x b + x ^ 8 * val x (number p) := by
  rw [number, foldr_cons, ← number, val_split x 8, Nat.mul_add_mod_self_right,
    Nat.mod_eq_of_lt b.isLt, Nat.mul_comm, Nat.mul_add_div (Nat.two_pow_pos 8),
    Nat.div_eq_of_lt b.isLt, add_zero]
  rfl

theorem val_number_append (p q : List (BitVec 8)) :
    val x (number (p ++ q)) = val x (number p) + x ^ (8 * p.length) * val x (number q) := by
  induction p with
  | nil =>
    rw [nil_append, length_nil, mul_zero, pow_zero, one_mul]
    show _ = val x 0 + _
    rw [val_zero, zero_add]
  | cons b p ih =>
    rw [cons_append, val_number_cons, ih, val_number_cons, length_cons, mul_succ,
      pow_add]
    ring

theorem val_number_xor (two : (2 : A) = 0) : ∀ {p q : List (BitVec 8)}, p.length = q.length →
    val x (number (List.zipWith (· ^^^ ·) p q)) = val x (number p) + val x (number q) := by
  intro p
  induction p with
  | nil =>
    intro q same
    rw [eq_nil_of_length_eq_zero same.symm]
    show val x 0 = val x 0 + val x 0
    rw [val_zero, add_zero]
  | cons b p ih =>
    intro q same
    cases q with
    | nil => cases same
    | cons d q =>
      rw [zipWith_cons_cons, val_number_cons, ih (Nat.succ.inj same), poly_xor two,
        val_number_cons, val_number_cons]
      ring

theorem number_lt : ∀ (p : List (BitVec 8)), number p < 2 ^ (8 * p.length) := by
  intro p
  induction p with
  | nil => exact one_pos
  | cons b p ih =>
    rw [number, foldr_cons, ← number, length_cons, mul_succ, pow_add]
    omega

theorem poly_load (p : List (BitVec 8)) : poly x (load p) = val x (number (p.take 16)) := by
  have small : number (p.take 16) < 2 ^ 128 :=
    lt_of_lt_of_le (number_lt _) (Nat.pow_le_pow_right (by decide)
      (mul_le_mul_left 8 (length_take_le 16 p)))
  rw [load, poly, BitVec.toNat_ofNat, mod_eq_of_lt small]

theorem number_bytes {w : Nat} : ∀ (n : Nat) (v : BitVec w), v.toNat < 2 ^ (8 * n) →
    number (bytes n v) = v.toNat := by
  intro n
  induction n with
  | zero =>
    intro v small
    exact (lt_one_iff.mp small).symm
  | succ n ih =>
    intro v small
    have shifted : (v >>> 8).toNat = v.toNat / 2 ^ 8 := by
      rw [BitVec.toNat_ushiftRight, shiftRight_eq_div_pow]
    rw [mul_succ, pow_add] at small
    rw [bytes, number, foldr_cons, ← number,
      ih _ (by rw [shifted]; exact Nat.div_lt_of_lt_mul (by rwa [mul_comm])), shifted,
      BitVec.toNat_setWidth]
    exact div_add_mod' v.toNat (2 ^ 8)

theorem poly_parts (v : BitVec 128) :
    poly x v = poly x (low v) + x ^ 64 * poly x (high v) := by
  have small : (v >>> 64).toNat < 2 ^ 64 := by
    rw [BitVec.toNat_ushiftRight, shiftRight_eq_div_pow]
    omega
  rw [low, high, poly_truncate small]
  exact poly_split x v

/-- A multiplier advances by the factor in its low half. -/
theorem poly_fold (two : (2 : A) = 0) {k : Multiplier} {c : A} (lo : poly x k.lo = c)
    (hi : poly x k.hi = c * x ^ 64) (acc : BitVec 128) :
    poly x (fold k acc) = c * poly x acc := by
  rw [fold, poly_xor two, poly_clmul two, poly_clmul two, lo, hi, poly_parts acc]
  ring

variable {ld : List (BitVec 8) → BitVec 128} {g : A → BitVec 8 → A} {c scale : A}

/-- The register after one more chunk; `scale` takes an accumulator to its register and `c`
over a chunk. -/
def Advances (x c scale : A) (ld : List (BitVec 8) → BitVec 128) (g : A → BitVec 8 → A) : Prop :=
  ∀ (a : A) (p : List (BitVec 8)), 16 ≤ p.length →
    p.foldl g (scale * a) = (p.drop 16).foldl g (scale * (c * a + poly x (ld p)))

theorem chunkLoop_run (two : (2 : A) = 0) (advances : Advances x c scale ld g) {k : Multiplier}
    (folds : ∀ a, poly x (fold k a) = c * poly x a) :
    ∀ (nc : Nat) (p : List (BitVec 8)) (acc : BitVec 128), 16 * nc ≤ p.length →
      (chunkLoop k ld nc p acc).1.length + 16 * nc = p.length ∧
        (chunkLoop k ld nc p acc).1.foldl g (scale * poly x (chunkLoop k ld nc p acc).2) =
          p.foldl g (scale * poly x acc) := by
  intro nc
  induction nc with
  | zero =>
    intro p acc _
    exact ⟨rfl, rfl⟩
  | succ nc ih =>
    intro p acc enough
    have left : (p.drop 16).length = p.length - 16 := length_drop
    obtain ⟨len, same⟩ := ih (p.drop 16) (fold k acc ^^^ ld p) (by omega)
    rw [chunkLoop, advances _ p (by omega), ← folds, ← poly_xor two]
    exact ⟨by omega, same⟩

def Four.total (x c : A) (a : Four) : A :=
  c ^ 3 * poly x a.a0 + c ^ 2 * poly x a.a1 + c * poly x a.a2 + poly x a.a3

theorem fourLoop_run (two : (2 : A) = 0) (advances : Advances x c scale ld g) {k : Multiplier}
    (folds : ∀ a, poly x (fold k a) = c ^ 4 * poly x a) (nc : Nat) (p : List (BitVec 8))
    (a : Four) (enough : 16 * nc ≤ p.length) :
    16 * (fourLoop k ld nc p a).1 ≤ (fourLoop k ld nc p a).2.1.length ∧
      (fourLoop k ld nc p a).2.1.length + 16 * nc = p.length + 16 * (fourLoop k ld nc p a).1 ∧
      (fourLoop k ld nc p a).2.1.foldl g (scale * (fourLoop k ld nc p a).2.2.total x c) =
        p.foldl g (scale * a.total x c) := by
  induction nc, p, a using fourLoop.induct k ld with
  | case1 nc p a ih =>
    have left : (p.drop 64).length = p.length - 64 := length_drop
    obtain ⟨room, len, same⟩ := ih (by omega)
    rw [fourLoop]
    refine ⟨room, by omega, same.trans ?_⟩
    rw [advances _ p (by omega), advances _ (p.drop 16) (by rw [length_drop]; omega),
      drop_drop, advances _ (p.drop 32) (by rw [length_drop]; omega),
      drop_drop, advances _ (p.drop 48) (by rw [length_drop]; omega),
      drop_drop]
    refine congrArg (fun t => (p.drop 64).foldl g (scale * t)) ?_
    simp only [Four.total, poly_xor two, folds]
    ring
  | case2 nc p a few =>
    rw [fourLoop]
    · exact ⟨enough, rfl, rfl⟩
    · exact few

end Residues

end Micron.Crc

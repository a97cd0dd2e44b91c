import Mathlib.Data.Nat.Bitwise

/-!
# Words compared by their leading bits

Bits are numbered from the most significant one.  Two words that differ have a
first differing bit, the leading bit of their exclusive or, and the word with
the 0 there is the smaller one.
-/

set_option autoImplicit false

namespace Micron.Lib

open Nat BitVec

variable {w : Nat}

theorem lt_of_first_diff {a b : BitVec w} {p : Nat} (inside : p < w)
    (agree : ∀ i, i < p → a.getMsbD i = b.getMsbD i) (zero : a.getMsbD p = false)
    (one : b.getMsbD p = true) : a.toNat < b.toNat := by
  have bitOf : ∀ (x : BitVec w) (i : Nat), i < w → x.getMsbD i = x.toNat.testBit (w - 1 - i) := by
    intro x i below
    rw [getMsbD_eq_getLsbD, decide_eq_true below, Bool.true_and, testBit_toNat]
  apply lt_of_testBit (w - 1 - p)
  · rw [← bitOf a p inside, zero]
  · rw [← bitOf b p inside, one]
  · intro j above
    by_cases outside : w ≤ j
    · rw [Nat.testBit_lt_two_pow (lt_of_lt_of_le a.isLt (Nat.pow_le_pow_right (by decide) outside)),
        Nat.testBit_lt_two_pow (lt_of_lt_of_le b.isLt (Nat.pow_le_pow_right (by decide) outside))]
    · have mirrored : j = w - 1 - (w - 1 - j) := by omega
      rw [mirrored, ← bitOf a _ (by omega), ← bitOf b _ (by omega)]
      exact agree _ (by omega)

/-- The position of the leading bit of `a ^^^ b`. -/
theorem first_diff_of_xor {a b : BitVec w} (distinct : a ≠ b) :
    (a ^^^ b).toNat ≠ 0 ∧ (a ^^^ b).toNat.log2 < w ∧
      (∀ i, i < w - 1 - (a ^^^ b).toNat.log2 → a.getMsbD i = b.getMsbD i) ∧
      a.getMsbD (w - 1 - (a ^^^ b).toNat.log2) ≠ b.getMsbD (w - 1 - (a ^^^ b).toNat.log2) := by
  have nonzero : (a ^^^ b).toNat ≠ 0 := by
    intro zero
    apply distinct
    apply BitVec.xor_eq_zero_iff.mp
    exact BitVec.eq_of_toNat_eq (by simpa using zero)
  have small : (a ^^^ b).toNat.log2 < w := (Nat.log2_lt nonzero).mpr (a ^^^ b).isLt
  have bitOf : ∀ i, i < w → (a ^^^ b).getMsbD i = (a ^^^ b).toNat.testBit (w - 1 - i) := by
    intro i below
    rw [getMsbD_eq_getLsbD, decide_eq_true below, Bool.true_and, testBit_toNat]
  refine ⟨nonzero, small, ?_, ?_⟩
  · intro i before
    have clear : (a ^^^ b).getMsbD i = false := by
      rw [bitOf i (by omega)]
      apply testBit_lt_two_pow
      have bound : (a ^^^ b).toNat.log2 < w - 1 - i := by omega
      exact (Nat.log2_lt nonzero).mp bound
    simpa using clear
  · have set : (a ^^^ b).getMsbD (w - 1 - (a ^^^ b).toNat.log2) = true := by
      rw [bitOf _ (by omega)]
      have mirrored : w - 1 - (w - 1 - (a ^^^ b).toNat.log2) = (a ^^^ b).toNat.log2 := by omega
      rw [mirrored]
      exact testBit_log2 nonzero
    simpa using set

theorem toNat_signBit (positive : 0 < w) : (1#w <<< (w - 1)).toNat = 2 ^ (w - 1) := by
  rw [toNat_shiftLeft, toNat_ofNat, Nat.mod_eq_of_lt (Nat.one_lt_two_pow positive.ne'),
    Nat.shiftLeft_eq, one_mul]
  exact Nat.mod_eq_of_lt (Nat.pow_lt_pow_right (by decide) (Nat.sub_one_lt positive.ne'))

theorem toNat_xor_signBit_of_lt (positive : 0 < w) {x : BitVec w} (small : x.toNat < 2 ^ (w - 1)) :
    (x ^^^ (1#w <<< (w - 1))).toNat = x.toNat + 2 ^ (w - 1) := by
  have disjoint : x &&& (1#w <<< (w - 1)) = 0#w := by
    apply eq_of_toNat_eq
    rw [toNat_and, toNat_signBit positive, toNat_ofNat, Nat.zero_mod,
      Nat.and_two_pow, Nat.testBit_lt_two_pow small]
    simp
  have sum := add_eq_or_of_and_eq_zero x _ disjoint
  have joined : x ^^^ (1#w <<< (w - 1)) = x ||| (1#w <<< (w - 1)) := by
    apply eq_of_getLsbD_eq
    intro i _
    have bit := congrArg (fun y => y.getLsbD i) disjoint
    simp only [getLsbD_and, getLsbD_zero] at bit
    rw [getLsbD_xor, getLsbD_or]
    cases inX : x.getLsbD i with
    | false => simp
    | true =>
      rw [inX, Bool.true_and] at bit
      simp [bit]
  have whole : 2 ^ (w - 1) + 2 ^ (w - 1) = 2 ^ w := by
    rw [← Nat.two_mul, ← Nat.pow_succ', Nat.succ_eq_add_one, Nat.sub_add_cancel positive]
  rw [joined, ← sum, toNat_add, toNat_signBit positive, Nat.mod_eq_of_lt (by omega)]

/-- Read as an unsigned number, the word with its sign bit flipped is the signed
number shifted up. -/
theorem toNat_xor_signBit (positive : 0 < w) (x : BitVec w) :
    ((x ^^^ (1#w <<< (w - 1))).toNat : Int) = x.toInt + 2 ^ (w - 1) := by
  have whole : 2 ^ (w - 1) + 2 ^ (w - 1) = 2 ^ w := by
    rw [← Nat.two_mul, ← Nat.pow_succ', Nat.succ_eq_add_one, Nat.sub_add_cancel positive]
  have whole' : ((2 : Int) ^ w) = 2 ^ (w - 1) + 2 ^ (w - 1) := by exact_mod_cast whole.symm
  by_cases small : x.toNat < 2 ^ (w - 1)
  · rw [toNat_xor_signBit_of_lt positive small, toInt_eq_toNat_of_lt (by omega)]
    rfl
  · have flipped : (x ^^^ (1#w <<< (w - 1))).toNat < 2 ^ (w - 1) := by
      have set : x.msb = true := by
        rw [msb_eq_decide]
        exact decide_eq_true (not_lt.mp small)
      have mark : (1#w <<< (w - 1)).msb = true := by
        rw [msb_eq_decide, toNat_signBit positive]
        exact decide_eq_true (le_refl _)
      have clear : (x ^^^ (1#w <<< (w - 1))).msb = false := by
        rw [msb_xor, set, mark]
        rfl
      rw [msb_eq_decide, decide_eq_false_iff_not] at clear
      exact not_le.mp clear
    have back := toNat_xor_signBit_of_lt positive flipped
    rw [BitVec.xor_assoc, BitVec.xor_self, BitVec.xor_zero] at back
    rw [toInt_eq_toNat_cond, if_neg (by omega)]
    push_cast
    rw [whole', back]
    push_cast
    omega

end Micron.Lib

import Mathlib.Data.Int.ModEq
import Mathlib.Tactic.Ring

/-!
# Numbers as lists of words

The least significant word comes first.  A list of a given length stands for one number
below a power of the radix, and `Rep` says for which integer it stands up to that power.
-/

set_option autoImplicit false

namespace Micron.Lib.Words

open Nat

variable {w : Nat}

def radix (w : Nat) : Nat := 2 ^ w

theorem radix_pos (w : Nat) : 0 < radix w := Nat.two_pow_pos w

theorem one_lt_radix (some_ : 0 < w) : 1 < radix w := Nat.one_lt_two_pow (by omega)

theorem toNat_lt (d : BitVec w) : d.toNat < radix w := d.isLt

def val : List (BitVec w) → Nat
  | [] => 0
  | d :: rest => d.toNat + radix w * val rest

@[simp] theorem val_nil : val ([] : List (BitVec w)) = 0 := rfl

@[simp] theorem val_cons (d : BitVec w) (rest : List (BitVec w)) :
    val (d :: rest) = d.toNat + radix w * val rest := rfl

theorem val_lt (a : List (BitVec w)) : val a < radix w ^ a.length := by
  induction a with
  | nil => exact one_pos
  | cons d rest ih =>
    have small := toNat_lt d
    have room : radix w * (val rest + 1) ≤ radix w * radix w ^ rest.length := mul_le_mul_left _ ih
    rw [val_cons, List.length_cons, pow_succ']
    rw [mul_add, mul_one] at room
    omega

/-- A number splits into a word and the rest. -/
theorem toNat_ofNat_add (n : Nat) : (BitVec.ofNat w n).toNat + radix w * (n / radix w) = n := by
  exact mod_add_div n (radix w)

theorem toNat_ofNat_of_lt {n : Nat} (small : n < radix w) : (BitVec.ofNat w n).toNat = n := by
  exact mod_eq_of_lt small

/-- The list has `m` words and stands for the integer up to a multiple of the power. -/
def Rep (m : Nat) (a : List (BitVec w)) (z : Int) : Prop :=
  a.length = m ∧ (val a : Int) ≡ z [ZMOD (radix w : Int) ^ m]

namespace Rep

variable {m : Nat} {a b : List (BitVec w)} {x y : Int}

theorem self (a : List (BitVec w)) : Rep a.length a (val a) := ⟨rfl, Int.ModEq.refl _⟩

theorem of_eq (length : a.length = m) (value : (val a : Int) = x) : Rep m a x :=
  ⟨length, value ▸ Int.ModEq.refl _⟩

theorem congr (rep : Rep m a x) (same : x = y) : Rep m a y := same ▸ rep

theorem shift (rep : Rep m a x) (c : Int) : Rep m a (x + (radix w : Int) ^ m * c) :=
  ⟨rep.1, rep.2.trans (Int.modEq_iff_dvd.mpr ⟨c, by ring⟩)⟩

/-- An integer within the range is the number itself. -/
theorem eq (rep : Rep m a x) (low : 0 ≤ x) (high : x < (radix w : Int) ^ m) : (val a : Int) = x := by
  have bound : (val a : Int) < (radix w : Int) ^ m := by
    rw [← rep.1]
    exact_mod_cast val_lt a
  have same := rep.2
  unfold Int.ModEq at same
  rwa [Int.emod_eq_of_lt (Int.natCast_nonneg _) bound, Int.emod_eq_of_lt low high] at same

end Rep

end Micron.Lib.Words

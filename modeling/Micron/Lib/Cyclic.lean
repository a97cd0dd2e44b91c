import Mathlib.Data.Nat.Bitwise
import Mathlib.Data.Nat.ModEq

/-!
# Cyclic slot numbers

Probing walks a table of `n` slots with wrap-around.  The lemmas turn the
masked and reduced index arithmetic of a probe loop into equations that close
by linear arithmetic, and say when two probe offsets reach one slot.
-/

set_option autoImplicit false

namespace Micron.Lib

open Nat

theorem and_mask_eq_mod (x e : Nat) : x &&& (2 ^ e - 1) = x % 2 ^ e :=
  and_two_pow_sub_one_eq_mod x e

theorem succ_mod_eq {i n : Nat} (below : i < n) :
    (i + 1) % n = if i + 1 = n then 0 else i + 1 := by
  split
  · rename_i wraps
    rw [wraps, mod_self]
  · rename_i inside
    exact mod_eq_of_lt (by omega)

theorem succ_mod_inj {i j n : Nat} (belowI : i < n) (belowJ : j < n)
    (same : (i + 1) % n = (j + 1) % n) : i = j := by
  rw [succ_mod_eq belowI, succ_mod_eq belowJ] at same
  split at same <;> split at same <;> omega

theorem succ_mod_ne {i n : Nat} (below : i < n) (two : 2 ≤ n) : (i + 1) % n ≠ i := by
  rw [succ_mod_eq below]
  split <;> omega

theorem two_le_two_pow {e : Nat} (big : 1 ≤ e) : 2 ≤ 2 ^ e := by
  calc 2 = 2 ^ 1 := rfl
    _ ≤ 2 ^ e := Nat.pow_le_pow_right (by omega) big

/-- One more probe step is the successor slot. -/
theorem add_succ_mod (a b n : Nat) : (a + (b + 1)) % n = ((a + b) % n + 1) % n := by
  rw [mod_add_mod, add_assoc]

/-- Probe offsets below `n` reach distinct slots. -/
theorem offset_inj {start a b n : Nat} (belowA : a < n) (belowB : b < n)
    (same : (start + a) % n = (start + b) % n) : a = b := by
  have congruent : a ≡ b [MOD n] := Nat.ModEq.add_left_cancel' start same
  exact Nat.ModEq.eq_of_lt_of_lt congruent belowA belowB

/-- Every slot is reached from every start. -/
theorem exists_offset {start slot n : Nat} (belowStart : start < n) (below : slot < n) :
    ∃ d, d < n ∧ (start + d) % n = slot := by
  by_cases order : start ≤ slot
  · refine ⟨slot - start, by omega, ?_⟩
    rw [Nat.add_sub_cancel' order, Nat.mod_eq_of_lt below]
  · refine ⟨n - start + slot, by omega, ?_⟩
    have total : start + (n - start + slot) = slot + n := by omega
    rw [total, add_mod_right, mod_eq_of_lt below]

end Micron.Lib

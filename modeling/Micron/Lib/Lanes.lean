import Mathlib.Data.List.Basic
import Mathlib.Data.Nat.Bitwise

/-!
# Lanes of a vector register

A comparison of lanes gives a mask with one bit for each lane, and the first lane that
compares true is the number of zeros below the lowest bit of the mask.
-/

set_option autoImplicit false

namespace Micron.Lib

open BitVec

/-- One bit for each of the first `n` lanes. -/
def moveMask (lane : Nat → Bool) : Nat → BitVec 32
  | 0 => 0#32
  | n + 1 => moveMask lane n ||| (if lane n then BitVec.twoPow 32 n else 0#32)

/-- The number of zeros below the lowest bit that is set. -/
def ctz (x : BitVec 32) : Nat := ((List.range 32).find? fun i => x.getLsbD i).getD 32

theorem getLsbD_moveMask (lane : Nat → Bool) {n : Nat} (fits : n ≤ 32) (i : Nat) :
    (moveMask lane n).getLsbD i = (decide (i < n) && lane i) := by
  induction n with
  | zero => simp [moveMask]
  | succ n ih =>
    rw [moveMask, getLsbD_or, ih (by omega)]
    have bit : (if lane n then BitVec.twoPow 32 n else 0#32).getLsbD i =
        (decide (i = n) && lane n) := by
      split
      next set =>
        rw [getLsbD_twoPow, set, Bool.and_true]
        by_cases same : n = i
        · simp [same]
          omega
        · simp [same, Ne.symm same]
      next unset => simp [Bool.eq_false_iff.mpr unset]
    rw [bit]
    by_cases same : i = n
    · subst same
      simp
    · have less : (i < n + 1) ↔ i < n := by omega
      simp [same, less]

theorem ctz_eq {x : BitVec 32} {i : Nat} (inside : i < 32) (set : x.getLsbD i = true)
    (earlier : ∀ j < i, x.getLsbD j = false) : ctz x = i := by
  have first : (List.range 32).find? (fun i => x.getLsbD i) = some i := by
    rw [List.find?_range_eq_some]
    refine ⟨set, List.mem_range.mpr inside, fun j less => ?_⟩
    rw [earlier j less]
    rfl
  rw [ctz, first, Option.getD_some]

theorem moveMask_eq_zero_iff (lane : Nat → Bool) {n : Nat} (fits : n ≤ 32) :
    moveMask lane n = 0#32 ↔ ∀ i < n, lane i = false := by
  refine ⟨fun zero i inside => ?_, fun none => ?_⟩
  · have bit := getLsbD_moveMask lane fits i
    rw [zero, getLsbD_zero, decide_eq_true inside, Bool.true_and] at bit
    exact bit.symm
  · refine eq_of_getLsbD_eq fun i _ => ?_
    rw [getLsbD_moveMask lane fits, getLsbD_zero]
    by_cases inside : i < n
    · rw [none i inside, Bool.and_false]
    · rw [decide_eq_false inside, Bool.false_and]

/-- The first lane that compares true. -/
theorem ctz_moveMask {lane : Nat → Bool} {n i : Nat} (fits : n ≤ 32) (inside : i < n)
    (set : lane i = true) (earlier : ∀ j < i, lane j = false) : ctz (moveMask lane n) = i := by
  refine ctz_eq (by omega) ?_ fun j less => ?_
  · rw [getLsbD_moveMask lane fits, decide_eq_true inside, set]
    rfl
  · rw [getLsbD_moveMask lane fits, earlier j less, Bool.and_false]

/-- The first lane that compares false. -/
theorem ctz_not_moveMask {lane : Nat → Bool} {n i : Nat} (fits : n ≤ 32) (inside : i < n)
    (unset : lane i = false) (earlier : ∀ j < i, lane j = true) :
    ctz (~~~(moveMask lane n)) = i := by
  refine ctz_eq (by omega) ?_ fun j less => ?_
  · rw [getLsbD_not, getLsbD_moveMask lane fits, unset, Bool.and_false,
      decide_eq_true (by omega : i < 32)]
    rfl
  · rw [getLsbD_not, getLsbD_moveMask lane fits, earlier j less,
      decide_eq_true (by omega : j < n), decide_eq_true (by omega : j < 32)]
    rfl

/-- With the top bit flipped, a signed comparison is the unsigned one. -/
theorem flip_slt_flip (x y : BitVec 8) : (x ^^^ 0x80#8).slt (y ^^^ 0x80#8) = decide (x.toNat < y.toNat) := by
  have shifted : ∀ z : BitVec 8, (z ^^^ 0x80#8).toInt = (z.toNat : Int) - 128 := by decide
  rw [slt_eq_decide, shifted, shifted]
  exact decide_eq_decide.mpr (by omega)

end Micron.Lib

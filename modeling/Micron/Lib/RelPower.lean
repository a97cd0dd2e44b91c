import Mathlib.Logic.Relation

/-!
# Powers of a relation

`Power r k x y` joins `x` to `y` by exactly `k` steps of `r`.  Counting the steps
gives an induction that does not follow the shape of what the steps run over.
-/

set_option autoImplicit false

namespace Micron.Lib

variable {α : Type} {r r' : α → α → Prop} {x y z : α} {j k : Nat}

def Power (r : α → α → Prop) : Nat → α → α → Prop
  | 0, x, y => x = y
  | k + 1, x, y => ∃ z, r x z ∧ Power r k z y

@[simp] theorem power_zero : Power r 0 x y ↔ x = y := Iff.rfl

theorem power_succ : Power r (k + 1) x y ↔ ∃ z, r x z ∧ Power r k z y := Iff.rfl

@[simp] theorem power_one : Power r 1 x y ↔ r x y := by
  simp [power_succ]

theorem Power.append (first : Power r j x y) (second : Power r k y z) : Power r (j + k) x z := by
  induction j generalizing x with
  | zero =>
    subst first
    simpa using second
  | succ j ih =>
    obtain ⟨w, step, more⟩ := first
    rw [Nat.add_right_comm]
    exact ⟨w, step, ih more⟩

theorem Power.parts (run : Power r (j + k) x z) : ∃ y, Power r j x y ∧ Power r k y z := by
  induction j generalizing x with
  | zero => exact ⟨x, rfl, by simpa using run⟩
  | succ j ih =>
    rw [Nat.add_right_comm] at run
    obtain ⟨w, step, more⟩ := run
    obtain ⟨y, first, second⟩ := ih more
    exact ⟨y, ⟨w, step, first⟩, second⟩

theorem Power.snoc (first : Power r k x y) (last : r y z) : Power r (k + 1) x z :=
  first.append (power_one.mpr last)

theorem exists_power (run : Relation.ReflTransGen r x y) : ∃ k, Power r k x y := by
  induction run with
  | refl => exact ⟨0, rfl⟩
  | tail _ step ih =>
    obtain ⟨k, run⟩ := ih
    exact ⟨k + 1, run.snoc step⟩

end Micron.Lib

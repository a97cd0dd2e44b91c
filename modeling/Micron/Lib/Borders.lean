import Mathlib.Logic.Function.Basic

/-!
# Borders of the suffixes of a pattern

A pattern is a function of which the first `m` values are read.  A border of the suffix at `i`
begins at a later place `j`, from where the pattern goes on as it does from `i`.
-/

set_option autoImplicit false

namespace Micron.Borders

variable {α : Type} {p : Nat → α} {m i j k : Nat}

structure Border (p : Nat → α) (m i j : Nat) : Prop where
  later : i < j
  inside : j ≤ m
  same : ∀ t, j + t < m → p (i + t) = p (j + t)

/-- The widest border of the suffix at `i`; the empty suffix has none. -/
def Widest (p : Nat → α) (m i j : Nat) : Prop :=
  (Border p m i j ∧ ∀ k, Border p m i k → j ≤ k) ∨ (i = m ∧ j = m + 1)

theorem Border.empty (inside : i < m) : Border p m i m :=
  ⟨inside, Nat.le_refl m, fun t lt => by omega⟩

/-- The narrower borders of a suffix are those of its border. -/
theorem Border.next (border : Border p m i j) (lt : j < k) :
    Border p m i k ↔ Border p m j k := by
  constructor
  · intro wider
    refine ⟨lt, wider.inside, fun t inside => ?_⟩
    exact (border.same t (by omega)).symm.trans (wider.same t inside)
  · intro narrower
    refine ⟨Nat.lt_trans border.later lt, narrower.inside, fun t inside => ?_⟩
    exact (border.same t (by omega)).trans (narrower.same t inside)

/-- A border with one character in front of it. -/
theorem Border.extend (inside : j < m) :
    Border p m i j ↔ Border p m (i + 1) (j + 1) ∧ p i = p j := by
  constructor
  · intro border
    refine ⟨⟨Nat.succ_lt_succ border.later, inside, fun t lt => ?_⟩, border.same 0 inside⟩
    have one := border.same (t + 1) (by omega)
    rwa [← Nat.add_assoc, ← Nat.add_assoc, Nat.add_right_comm i, Nat.add_right_comm j] at one
  · rintro ⟨border, first⟩
    refine ⟨Nat.lt_of_succ_lt_succ border.later, Nat.le_of_lt inside, fun t lt => ?_⟩
    cases t with
    | zero => exact first
    | succ t =>
      have one := border.same t (by omega)
      rwa [Nat.add_right_comm i, Nat.add_right_comm j, Nat.add_assoc, Nat.add_assoc] at one

theorem Widest.later (widest : Widest p m i j) : i < j := by
  rcases widest with ⟨border, _⟩ | ⟨rfl, rfl⟩
  · exact border.later
  · exact Nat.lt_succ_self _

/-- From the candidates at `i + 1` to the border at `i`. -/
theorem Widest.extend (inside : i < m)
    (found : (Border p m (i + 1) (j + 1) ∧ p i = p j) ∨ j = m)
    (wider : ∀ k, Border p m (i + 1) k → k < j + 1 → p i ≠ p (k - 1)) : Widest p m i j := by
  have least : ∀ k, Border p m i k → j ≤ k := by
    intro k border
    by_contra less
    have below : k < m := by
      rcases found with ⟨whole, _⟩ | rfl
      · have le := whole.inside
        omega
      · omega
    obtain ⟨longer, first⟩ := (Border.extend below).mp border
    exact wider (k + 1) longer (by omega) first
  rcases found with ⟨border, first⟩ | rfl
  · exact .inl ⟨(Border.extend border.inside).mpr ⟨border, first⟩, least⟩
  · exact .inl ⟨Border.empty inside, least⟩

end Micron.Borders

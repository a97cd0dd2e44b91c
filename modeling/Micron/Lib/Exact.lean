import Mathlib.Algebra.Order.BigOperators.Group.List
import Mathlib.Algebra.Order.Ring.Nat

/-!
# Words and lanes that must not overflow

An operation on machine words is written with its result as a number and yields nothing where
the number does not fit.  A result is then an exact one, and a bound on the sum of the lanes is
enough for every lane to fit.
-/

set_option autoImplicit false

namespace Micron.Exact

open List

def fit (bits x : Nat) : Option Nat := if x < 2 ^ bits then some x else none

def fits (bits : Nat) (lanes : List Nat) : Option (List Nat) :=
  if ∀ x ∈ lanes, x < 2 ^ bits then some lanes else none

def add (bits : Nat) (a b : List Nat) : Option (List Nat) := fits bits (List.zipWith (· + ·) a b)

def pairs : List Nat → List Nat
  | a :: b :: rest => (a + b) :: pairs rest
  | _ => []

theorem fit_of_lt {bits x : Nat} (small : x < 2 ^ bits) : fit bits x = some x := if_pos small

theorem fits_of_sum {bits : Nat} {lanes : List Nat} (small : lanes.sum < 2 ^ bits) :
    fits bits lanes = some lanes :=
  if_pos fun _ mem => Nat.lt_of_le_of_lt (single_le_sum (fun _ _ => Nat.zero_le _) _ mem) small

theorem fits_of_le {bits m : Nat} {lanes : List Nat} (small : ∀ x ∈ lanes, x ≤ m)
    (room : m < 2 ^ bits) : fits bits lanes = some lanes :=
  if_pos fun x mem => lt_of_le_of_lt (small x mem) room

theorem zipWith_add_sum : ∀ {a b : List Nat}, a.length = b.length →
    (List.zipWith (· + ·) a b).sum = a.sum + b.sum := by
  intro a
  induction a with
  | nil =>
    intro b same
    rw [eq_nil_of_length_eq_zero same.symm]
    rfl
  | cons x a ih =>
    intro b same
    cases b with
    | nil => cases same
    | cons y b =>
      rw [zipWith_cons_cons, sum_cons, sum_cons, sum_cons,
        ih (Nat.succ.inj same)]
      omega

/-- An addition of two registers of one shape, whose lanes fit because their sum does. -/
theorem add_spec {bits : Nat} {a b : List Nat} (same : a.length = b.length)
    (small : a.sum + b.sum < 2 ^ bits) :
    ∃ c, add bits a b = some c ∧ c.length = a.length ∧ c.sum = a.sum + b.sum := by
  refine ⟨_, fits_of_sum ?_, ?_, zipWith_add_sum same⟩
  · rw [zipWith_add_sum same]
    exact small
  · rw [length_zipWith, ← same, Nat.min_self]

theorem pairs_length : ∀ (a : List Nat) {n : Nat}, a.length = 2 * n → (pairs a).length = n
  | [], n, even => by
    rw [length_nil] at even
    rw [pairs, length_nil]
    · omega
    · intro _ _ _ wrong
      cases wrong
  | [_], _, even => by
    rw [length_singleton] at even
    omega
  | _ :: _ :: rest, n, even => by
    obtain ⟨m, rfl⟩ : ∃ m, n = m + 1 := ⟨n - 1, by simp only [length_cons] at even; omega⟩
    rw [pairs, length_cons,
      pairs_length rest (show rest.length = 2 * m by
        simp only [length_cons] at even
        omega)]

theorem pairs_le {m : Nat} : ∀ (a : List Nat), (∀ x ∈ a, x ≤ m) → ∀ x ∈ pairs a, x ≤ 2 * m
  | a :: b :: rest, small, x, mem => by
    rcases mem_cons.mp mem with rfl | mem
    · have first := small a mem_cons_self
      have second := small b (mem_cons_of_mem _ mem_cons_self)
      omega
    · exact pairs_le rest
        (fun y found => small y (mem_cons_of_mem _ (mem_cons_of_mem _ found))) x mem

theorem pairs_sum : ∀ (a : List Nat) {n : Nat}, a.length = 2 * n → (pairs a).sum = a.sum
  | [], _, _ => rfl
  | [_], _, even => by
    rw [length_singleton] at even
    omega
  | a :: b :: rest, n, even => by
    rw [pairs, sum_cons, sum_cons, sum_cons,
      pairs_sum rest (show rest.length = 2 * (n - 1) by
        simp only [length_cons] at even
        omega)]
    omega

end Micron.Exact
